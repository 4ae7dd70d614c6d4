/-
# TinySTM, access by access

The calls of `test/src/tx_sys/locktable.h` with `LOCKTABLE_ALG == LOCKTABLE_TINYSTM`, as a
machine in which any number of threads take turns and every load, store, compare-exchange
and fetch-add is one turn.

| program counter | the code there |
| --- | --- |
| `readOwner`, `readTs`, `readWord` | the three loads of `locktable_read` |
| `recheckTs`, `recheckOwner` | its second loads of the timestamp and of the owner |
| `loadClock` | `validate_ts = global_ts` in `locktable_add_read_set_entry` |
| `validateOwner`, `validateTs` | the two loads of `_locktable_validate` |
| `cas`, `entryTs` | `locktable_locktable_access` |
| `loadOld`, `store` | the undo entry and the store of `locktable_write` |
| `fetchAdd` | `global_ts.fetch_add(1)` |
| `undo` | a store of `locktable_apply_undo_entries` |
| `stampTs`, `unlock` | `locktable_unlock_table_entry` |
| `loadStart` | `readset_validated_ts = global_ts` |

`locktable_get_state` runs under a mutex and is part of the turn in which a call begins.
The state has some history: the accesses of the running transactions, the states that the
committed transactions left, by timestamp, and two facts about locks that the conditions on
runs speak of.
-/

import Sivfs.Locktable.Locks

namespace Sivfs
namespace Locktable
namespace TinyStm

open History UndoLog

/-- What `locktable_add_read_set_entry` returns to: `locktable_read` of a word, with the
value it has loaded, or `locktable_write`. -/
inductive Caller where
  | read (address value : ℕ)
  | write (address value : ℕ)
  deriving DecidableEq

/-- The loop over the read set: in `locktable_validate` before the entry is added, or in
`locktable_validate_pick_ts`. -/
inductive Loop where
  | entry (entry : ReadEntry) (validateTs : ℕ) (caller : Caller)
  | commit
  deriving DecidableEq

/-- Where a thread is, with its local variables. -/
inductive Pc where
  | idle
  /-- An exception has been thrown. -/
  | thrown
  | readOwner (address : ℕ)
  | readTs (address owner : ℕ)
  | readWord (address owner ts : ℕ)
  /-- `foreign`: another thread was writing under the lock when the word was loaded. -/
  | recheckTs (address owner ts value : ℕ) (foreign : Bool)
  | recheckOwner (address owner ts value : ℕ) (foreign : Bool)
  | loadClock (entry : ReadEntry) (caller : Caller)
  /-- The first entry of `rest` is looked at. -/
  | validateOwner (rest : List ReadEntry) (loop : Loop)
  | validateTs (rest : List ReadEntry) (owner : ℕ) (loop : Loop)
  | cas (address value : ℕ)
  | entryTs (address value : ℕ)
  | loadOld (address value : ℕ)
  | store (address value : ℕ)
  | fetchAdd
  /-- The first entry of `rest` is put back; the list is in reverse order. -/
  | undo (rest : List (ℕ × ℕ))
  /-- The first lock of `rest` gets its timestamp. -/
  | stampTs (rest : List ℕ)
  | unlock (rest : List ℕ)
  /-- The call opens the first transaction of the thread or has ended one. -/
  | loadStart (opens : Bool)
  deriving DecidableEq

/-- A thread: its `locktable_state`, where it is, and the accesses of its transaction. -/
structure Local where
  state : Thread
  pc : Pc
  txn : List (Access ℕ ℕ)
  deriving DecidableEq

namespace Local

variable (t : Local)

/-- The thread goes on at `pc`. -/
def goto (pc : Pc) : Local := { t with pc := pc }

/-- `state->aborted = true` and the exception. -/
def throwAborted : Local := { t with state := { t.state with aborted := true }, pc := .thrown }

/-- `locktable_add_read_set_entry` returns; a read returns its value then. -/
def back : Caller → Local
  | .read address value => { t with txn := t.txn ++ [.read address value], pc := .idle }
  | .write address value => t.goto (.loadOld address value)

/-- The entry is added. -/
def push (entry : ReadEntry) (caller : Caller) : Local :=
  { t with state := { t.state with readset := t.state.readset ++ [entry] } }.back caller

/-- `locktable_add_read_set_entry`, up to the load of `global_ts`. -/
def addReadSetEntry (entry : ReadEntry) (caller : Caller) : Local :=
  if t.state.readsetValidatedTs < entry.ts then t.goto (.loadClock entry caller)
  else t.push entry caller

/-- The end of the loop over the read set. -/
def finishLoop : Loop → Local
  | .entry entry validateTs caller =>
    if t.state.aborted then t.goto .thrown
    else { t with state := { t.state with readsetValidatedTs := validateTs } }.push entry caller
  | .commit => { t with state := { t.state with readset := [] }, pc := .fetchAdd }

/-- The loop over the read set goes on with `rest`. -/
def validate (rest : List ReadEntry) (loop : Loop) : Local :=
  if rest = [] then t.finishLoop loop else t.goto (.validateOwner rest loop)

/-- The loop over the locks goes on with `rest`. -/
def unlockFrom (rest : List ℕ) : Local :=
  if rest = [] then { t with state := { t.state with locksHeld := [] }, pc := .loadStart false }
  else t.goto (.stampTs rest)

/-- The loop over the undo entries goes on with `rest`. -/
def undoFrom (rest : List (ℕ × ℕ)) : Local :=
  if rest = [] then
    { t with state := { t.state with writeset := [], aborted := false } }.unlockFrom
      t.state.locksHeld
  else t.goto (.undo rest)

/-- After the commit timestamp is picked. -/
def undoOrKeep : Local :=
  if t.state.aborted then t.undoFrom t.state.writeset.reverse
  else { t with state := { t.state with writeset := [] } }.unlockFrom t.state.locksHeld

end Local

/-- Memory, `locktable_sstate`, the threads, and the history. -/
structure State (ι : Type) where
  mem : ℕ → ℕ
  lockOwnership : ℕ → ℕ
  ts : ℕ → ℕ
  globalTs : ℕ
  lastThrId : ℕ
  thread : ι → Local
  /-- The committed state once the transactions with timestamps up to `k` are over. -/
  committedAt : ℕ → ℕ → ℕ
  /-- The lock is taken, and its timestamp is not stored yet. -/
  writing : ℕ → Bool
  /-- The timestamp of the last committed transaction that held the lock. -/
  lastCommit : ℕ → ℕ

variable {ι : Type} [DecidableEq ι]

/-- A turn: a thread begins a call, or goes on with one. -/
inductive Act (ι : Type) where
  | read (i : ι) (address : ℕ)
  | write (i : ι) (address value : ℕ)
  | commitUpdate (i : ι)
  | next (i : ι)

/-- A lock with this owner may be read by the thread `thrId`. -/
def mayRead (owner thrId : ℕ) : Bool := owner = 0 ∨ owner = thrId

namespace State

variable (cfg : Config) (s : State ι) (i : ι)

/-- Thread `i` becomes `t`. -/
def setThread (t : Local) : State ι := { s with thread := Function.update s.thread i t }

/-- `locktable_get_state`. -/
def getState : State ι :=
  if (s.thread i).state.thrId = 0 then
    { s.setThread i { s.thread i with state := newThread s.lastThrId } with
      lastThrId := s.lastThrId + 1 }
  else s

/-- The state that a transaction with the undo entries `writeset` commits. -/
def commitState (writeset : List (ℕ × ℕ)) : ℕ → ℕ := fun a =>
  if a ∈ writeset.map Prod.fst then s.mem a else s.committedAt s.globalTs a

/-- `global_ts.fetch_add(1)`, where a transaction that is not aborted commits. -/
def fetchAdd : State ι :=
  let t := s.thread i
  let n := s.globalTs + 1
  let t' := { t with state := { t.state with commitTs := n } }
  { s.setThread i t'.undoOrKeep with
    globalTs := n
    committedAt := Function.update s.committedAt n
      (if t.state.aborted then s.committedAt s.globalTs else s.commitState t.state.writeset)
    lastCommit := fun l =>
      if t.state.aborted = false ∧ l ∈ t.state.locksHeld then n else s.lastCommit l }

/-- The next access of thread `i`. -/
def next : Option (State ι) :=
  let t := s.thread i
  let me := t.state.thrId
  match t.pc with
  | .idle => none
  | .thrown => none
  | .readOwner a => some <| s.setThread i <|
      t.goto (.readTs a (s.lockOwnership (cfg.addrToLock a)))
  | .readTs a owner => some <| s.setThread i <|
      t.goto (.readWord a owner (s.ts (cfg.addrToLock a)))
  | .readWord a owner ts => some <| s.setThread i <|
      t.goto (.recheckTs a owner ts (s.mem a)
        (s.writing (cfg.addrToLock a) ∧ s.lockOwnership (cfg.addrToLock a) ≠ me))
  | .recheckTs a owner ts v foreign => some <| s.setThread i <|
      if s.ts (cfg.addrToLock a) ≠ ts then t.throwAborted
      else t.goto (.recheckOwner a owner ts v foreign)
  | .recheckOwner a owner ts v _ => some <| s.setThread i <|
      if s.lockOwnership (cfg.addrToLock a) ≠ owner then t.throwAborted
      else if mayRead owner me then t.addReadSetEntry ⟨cfg.addrToLock a, ts⟩ (.read a v)
      else t.throwAborted
  | .loadClock entry caller => some <| s.setThread i <|
      t.validate t.state.readset (.entry entry s.globalTs caller)
  | .validateOwner [] _ => none
  | .validateOwner (r :: rest) loop => some <| s.setThread i <|
      t.goto (.validateTs (r :: rest) (s.lockOwnership r.lockid) loop)
  | .validateTs [] _ _ => none
  | .validateTs (r :: rest) owner loop => some <| s.setThread i <|
      if mayRead owner me ∧ r.ts = s.ts r.lockid then t.validate rest loop
      else { t with state := { t.state with aborted := true } }.validate rest loop
  | .cas a v =>
    let l := cfg.addrToLock a
    if s.lockOwnership l = 0 then
      let t' := { t with state := { t.state with locksHeld := t.state.locksHeld ++ [l] } }
      some { s.setThread i (t'.goto (.entryTs a v)) with
        lockOwnership := Function.update s.lockOwnership l me
        writing := Function.update s.writing l true }
    else some <| s.setThread i <|
      if s.lockOwnership l = me then t.goto (.loadOld a v) else t.throwAborted
  | .entryTs a v => some <| s.setThread i <|
      t.addReadSetEntry ⟨cfg.addrToLock a, s.ts (cfg.addrToLock a)⟩ (.write a v)
  | .loadOld a v =>
    let t' := { t with state := { t.state with writeset := t.state.writeset ++ [(a, s.mem a)] } }
    some <| s.setThread i <| t'.goto (.store a v)
  | .store a v => some
      { s.setThread i { t with txn := t.txn ++ [.write a v], pc := .idle } with
        mem := Function.update s.mem a v }
  | .fetchAdd => some (s.fetchAdd i)
  | .undo [] => none
  | .undo ((a, v) :: rest) => some
      { s.setThread i (t.undoFrom rest) with mem := Function.update s.mem a v }
  | .stampTs [] => none
  | .stampTs (l :: rest) => some
      { s.setThread i (t.goto (.unlock (l :: rest))) with
        ts := Function.update s.ts l t.state.commitTs
        writing := Function.update s.writing l false }
  | .unlock [] => none
  | .unlock (l :: rest) => some
      { s.setThread i (t.unlockFrom rest) with
        lockOwnership := Function.update s.lockOwnership l 0 }
  | .loadStart opens => some <| s.setThread i
      { state := { t.state with readsetValidatedTs := s.globalTs }
        pc := .idle
        txn := if opens then t.txn else [] }

/-- A call of `locktable_commit_update` begins. -/
def beginCommit : State ι :=
  let t := s.thread i
  s.setThread i <|
    if t.state.inTxn then t.validate t.state.readset .commit
    else { t with state := { t.state with inTxn := true }, pc := .loadStart true }

end State

/-- One turn.  After an exception a thread may only end its transaction. -/
def step (cfg : Config) (s : State ι) : Act ι → Option (State ι)
  | .read i a =>
    if (s.thread i).pc = .idle then
      let s := s.getState i
      some (s.setThread i ((s.thread i).goto (.readOwner a)))
    else none
  | .write i a v =>
    if (s.thread i).pc = .idle then
      let s := s.getState i
      some (s.setThread i ((s.thread i).goto (.cas a v)))
    else none
  | .commitUpdate i =>
    if (s.thread i).pc = .idle ∨ (s.thread i).pc = .thrown then some ((s.getState i).beginCommit i)
    else none
  | .next i => s.next cfg i

/-- No thread has called anything yet, and the table is zero-filled. -/
def Init (s : State ι) : Prop :=
  (∀ l, s.lockOwnership l = 0) ∧ (∀ l, s.ts l = 0) ∧ s.globalTs = 0 ∧ s.lastThrId = 1 ∧
    (∀ i, s.thread i = ⟨newThread 0, .idle, []⟩) ∧ s.committedAt 0 = s.mem ∧
    (∀ l, s.writing l = false) ∧ ∀ l, s.lastCommit l = 0

/-- The start, with memory `mem`. -/
def initial (mem : ℕ → ℕ) : State ι where
  mem := mem
  lockOwnership := fun _ => 0
  ts := fun _ => 0
  globalTs := 0
  lastThrId := 1
  thread := fun _ => ⟨newThread 0, .idle, []⟩
  committedAt := fun _ => mem
  writing := fun _ => false
  lastCommit := fun _ => 0

omit [DecidableEq ι] in
theorem init_initial (mem : ℕ → ℕ) : Init (initial mem : State ι) :=
  ⟨fun _ => rfl, fun _ => rfl, rfl, rfl, fun _ => rfl, rfl, fun _ => rfl, fun _ => rfl⟩

/-- The turns of the threads `ι`, in any order. -/
def turns (cfg : Config) (ι : Type) [DecidableEq ι] : Machine (State ι) (Act ι) where
  init := Init
  step := step cfg

/-- What the next access of a thread must not be for reads to be consistent:

* a read passes its last check although another thread was writing under the lock when the
  word was loaded, because this thread has given the lock back since;
* `global_ts` is loaded for a validation after a transaction committed that held the lock of
  the word being read, since that word was loaded;
* the first transaction of a thread is opened after its first read. -/
def GuardedAt (cfg : Config) (s : State ι) (t : Local) : Pc → Prop
  | .recheckOwner a owner _ _ foreign => foreign = true →
      ¬(s.lockOwnership (cfg.addrToLock a) = owner ∧ mayRead owner t.state.thrId = true)
  | .loadClock entry (.read _ _) => s.lastCommit entry.lockid ≤ entry.ts
  | .loadStart true => ∀ x ∈ t.txn, x.isRead = false
  | _ => True

instance (cfg : Config) (s : State ι) (t : Local) (pc : Pc) : Decidable (GuardedAt cfg s t pc) :=
  match pc with
  | .recheckOwner .. => inferInstanceAs (Decidable (_ → ¬_))
  | .loadClock _ (.read ..) => inferInstanceAs (Decidable (_ ≤ _))
  | .loadStart true => inferInstanceAs (Decidable (∀ x ∈ t.txn, x.isRead = false))
  | .idle | .thrown | .readOwner .. | .readTs .. | .readWord .. | .recheckTs ..
  | .loadClock _ (.write ..) | .validateOwner .. | .validateTs .. | .cas .. | .entryTs ..
  | .loadOld .. | .store .. | .fetchAdd | .undo .. | .stampTs .. | .unlock ..
  | .loadStart false => .isTrue trivial

/-- The turn stays out of the windows. -/
def Guarded (cfg : Config) (s : State ι) : Act ι → Prop
  | .next i => GuardedAt cfg s (s.thread i) (s.thread i).pc
  | _ => True

instance (cfg : Config) (s : State ι) (act : Act ι) : Decidable (Guarded cfg s act) :=
  match act with
  | .next _ => inferInstanceAs (Decidable (GuardedAt ..))
  | .read .. | .write .. | .commitUpdate .. => .isTrue trivial

/-- **The reads of the running transaction of thread `i` belong to one committed state**, but
for the words that it wrote before it read them. -/
def Consistent (s : State ι) (i : ι) : Prop :=
  ∃ k ≤ s.globalTs, Reads (s.committedAt k) (s.thread i).txn

end TinyStm
end Locktable
end Sivfs
