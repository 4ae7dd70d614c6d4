/-
# The validation window

`sivfs_commit_changes` validates from `state->ts + 1` to `next_ts - 1`.  The bounds
are `__u64`, and `SIVFS_INVALID_TS` is all ones: without a snapshot the window starts
at `0`, where there is no entry, and `sivfs_ts_to_log_entry` returns `0` with `NULL`
for it unless something of the log has been deleted.  `sivfs_validate` does not look at
the pointer, as `sivfs_update_page` does.

| `state->ts` | `master_log_deleted_ts` | `sivfs_validate` |
| --- | --- | --- |
| `x`, `next_ts = x + 1` | any | is not called |
| `x`, `next_ts > x + 1` | any | walks `x + 1, …, next_ts - 1` |
| `SIVFS_INVALID_TS` | not `0` | refuses and marks the commit aborted |
| `SIVFS_INVALID_TS` | `0` | goes on with the entry at `NULL` |

The protocol does not remember which entries a thread has compared itself with.  Here
it is watched: `processed` has the arguments of `_sivfs_validate` so far.
-/

import Sivfs.Commit.Chunks

namespace Sivfs
namespace Commit

/-- The protocol with what each thread has validated against: `none` if
`sivfs_validate` is not called, else the entries passed to `_sivfs_validate`. -/
structure Watched (ι : Type*) where
  log : LogState ι
  processed : ι → Option (List ℕ)

/-- What a thread has validated against when it has gone from `p` to `p'`. -/
def process : Pc → Pc → Option (List ℕ) → Option (List ℕ)
  | .check _, .lookup _, _ => some []
  | .check _, .fill _, _ => none
  | .visit _ c, .compare _ _, l | .visit _ c, .visited _ _, l | .visit _ c, .fault, l =>
    l.map (· ++ [c])
  | _, _, l => l

/-- The thread whose turn it is. -/
def Act.thread {ι : Type*} : Act ι → Option ι
  | .checkout i | .pause i | .begin i _ | .interrupt i | .acquire i | .createFails i | .next i =>
    some i
  | .deleteLog _ => none

/-- The entry `clog` or `next_clog` points to. -/
def Pc.examines : Pc → Option ℕ
  | .visit _ c | .compare _ c | .visited _ c | .follow _ c | .peek _ c => some c
  | _ => none

section Step

variable {ι : Type*} [DecidableEq ι]

/-- One turn, watched. -/
def watchStep (w : Watched ι) (a : LogAct ι) : Option (Watched ι) :=
  (logStep w.log a).map fun log =>
    { log := log
      processed := fun i => process (w.log.shared.pc i) (log.shared.pc i) (w.processed i) }

/-- The commit protocol with the memory of the log, watched. -/
def watched (ι : Type*) [DecidableEq ι] : Machine (Watched ι) (LogAct ι) where
  init w := (logProtocol ι).init w.log ∧ ∀ i, w.processed i = none
  step := watchStep

/-- The log is kept, and who calls `sivfs_validate` has a snapshot, unless the log has
been deleted from. -/
def WindowKnown (w : Watched ι) (a : LogAct ι) : Prop :=
  ChunkKept w.log a ∧ ∀ i n, a = .turn (.next i) → w.log.shared.pc i = .lookup n →
    (w.log.shared.threads i).ts ≠ invalidTs ∨ w.log.shared.deletedTs ≠ 0

end Step

/-- No transaction is concurrent, and `sivfs_validate` was not called. -/
def Unconcurrent (ts : Ts) (n : ℕ) (l : Option (List ℕ)) : Prop :=
  l = none ∧ ∃ x : ℕ, ts = (x : Ts) ∧ n ≤ x + 1

/-- `_sivfs_validate` was called for the timestamps above `state->ts` and below `n`, in
their order. -/
def WalkedWindow (ts : Ts) (n : ℕ) (l : Option (List ℕ)) : Prop :=
  ∃ x : ℕ, ts = (x : Ts) ∧ x + 1 < n ∧ l = some (List.range' (x + 1) (n - (x + 1)))

/-- The validation window names entries of the log. -/
structure WindowNamed {ι : Type*} (w : Watched ι) : Prop where
  /-- What is examined is there. -/
  examined : ∀ i c, (w.log.shared.pc i).examines = some c → (w.log.shared.deref c).isSome = true
  /-- When `sivfs_validate` is over. -/
  validated : ∀ i n, w.log.shared.pc i = .fill n →
    Unconcurrent (w.log.shared.threads i).ts n (w.processed i) ∨
    WalkedWindow (w.log.shared.threads i).ts n (w.processed i) ∧
      (∀ t : ℕ, (w.log.shared.threads i).ts < (t : Ts) → t < n →
        ∃ e, w.log.shared.deref t = some e ∧ e.ts = (t : Ts)) ∨
    ∃ own, w.log.shared.deref n = some own ∧ own.aborted = true

/-! ### Turns -/

theorem process_self (p : Pc) (l : Option (List ℕ)) : process p p l = l := by
  cases p <;> rfl

section Turn

variable {ι : Type*} {s s' : State ι}

/-- What a thread at `p` has validated against. -/
def Walked (s : State ι) (ts : Ts) (l : Option (List ℕ)) : Pc → Prop
  | .lookup _ => l = some []
  | .visit _ c | .peek _ c =>
    ∃ x : ℕ, ts = (x : Ts) ∧ x < c ∧ l = some (List.range' (x + 1) (c - (x + 1)))
  | .compare _ c | .visited _ c | .follow _ c =>
    ∃ x : ℕ, ts = (x : Ts) ∧ x < c ∧ l = some (List.range' (x + 1) (c - x))
  | .fill n => Unconcurrent ts n l ∨ WalkedWindow ts n l ∨
    ∀ own, s.log n = some own → own.aborted = true
  | _ => True

/-- The list after one more entry. -/
theorem range'_visit {x c : ℕ} (h : x < c) :
    List.range' (x + 1) (c - (x + 1)) ++ [c] = List.range' (x + 1) (c - x) := by
  obtain ⟨k, rfl⟩ : ∃ k, c = x + 1 + k := ⟨c - (x + 1), by omega⟩
  rw [show x + 1 + k - (x + 1) = k by omega, show x + 1 + k - x = k + 1 by omega,
    List.range'_1_concat]

/-- A thread that does not move keeps what it has validated against, if no abort is
taken back. -/
theorem Walked.of_keeps {ts : Ts} {l : Option (List ℕ)} {p : Pc} (h : Walked s ts l p)
    (hab : ∀ n own', p = .fill n → s'.log n = some own' →
      ∃ own, s.log n = some own ∧ (own.aborted = true → own'.aborted = true)) :
    Walked s' ts l p := by
  cases p with
  | fill n =>
    refine h.imp_right fun h => h.imp_right fun h own' hown' => ?_
    obtain ⟨own, hown, hkeep⟩ := hab n own' rfl hown'
    exact hkeep (h own hown)
  | _ => exact h

/-- What a move does to the list. -/
theorem Moves.walked (hc : Ctl s) (hl : Links s) (hf : Facts s) {i : ι} {p p' : Pc}
    {l : Option (List ℕ)} (hp : s.pc i = p) (h : Moves s i p p')
    (hw : Walked s (s.threads i).ts l p)
    (hknown : ∀ n c, p = .lookup n → p' = .visit n c → (s.threads i).ts ≠ invalidTs) :
    Walked s (s.threads i).ts (process p p' l) p' := by
  have hlog : ∀ {t e}, s.deref t = some e → s.log t = some e := fun h =>
    (State.deref_eq_some.1 h).1
  -- what validation knows of the entry it is at
  have hrange : ∀ n c, p.owned = some n →
      (∀ own, Knows s own p → InRange own n c) → c < n ∧ n ≤ s.top := by
    intro n c ho hin
    subst hp
    obtain ⟨own, hown⟩ := hl.own_deref hc ho
    exact ⟨(hin own (hf.knows i n own ho (hlog hown))).lt, (hc.owned i n ho).2⟩
  cases h with
  | begin | interrupt | giveUp | conflict | report | fault => trivial
  | concurrent => rfl
  | @alone n hlt =>
    refine .inl ⟨rfl, ?_⟩
    rcases hts : (s.threads i).ts with _ | x
    · have hpos := (hc.owned i n (by rw [hp]; rfl)).1
      rw [hts] at hlt
      change n < 1 at hlt
      omega
    · rw [hts] at hlt
      change n < x + 2 at hlt
      exact ⟨x, rfl, by omega⟩
  | @lookup n hle =>
    have hts := hknown n _ rfl rfl
    rcases hx : (s.threads i).ts with _ | x
    · exact absurd hx hts
    · refine ⟨x, rfl, Nat.lt_succ_self x, ?_⟩
      change l = some (List.range' (x + 1) (x + 1 - (x + 1)))
      rw [Nat.sub_self]
      exact hw
  | @skip n c =>
    obtain ⟨x, hx, hlt, rfl⟩ := hw
    exact ⟨x, hx, hlt, congrArg some (range'_visit hlt)⟩
  | @look n c =>
    obtain ⟨x, hx, hlt, rfl⟩ := hw
    exact ⟨x, hx, hlt, congrArg some (range'_visit hlt)⟩
  | pass => exact hw
  | @last n c own e _ _ he hts =>
    obtain ⟨hcn, hn⟩ := hrange n c rfl fun own h => h.1
    rw [hl.stamped_of_lt hc (hlog he) hcn hn] at hts
    have hc' : c = n - 1 := by exact_mod_cast hts
    obtain ⟨x, hx, hlt, rfl⟩ := hw
    refine .inr (.inl ⟨x, hx, by omega, ?_⟩)
    rw [show n - (x + 1) = c - x by omega]
    rfl
  | more => exact hw
  | @unlinked n c e he hnext =>
    obtain ⟨hcn, hn⟩ := hrange n c rfl fun own h => h.1
    rw [hl.linked c e (hlog he) (by omega)] at hnext
    simp at hnext
  | @follow n c d e he hnext =>
    obtain ⟨hcn, hn⟩ := hrange n c rfl fun own h => h.1
    rw [hl.linked c e (hlog he) (by omega)] at hnext
    obtain rfl := Option.some.inj hnext
    obtain ⟨x, hx, hlt, rfl⟩ := hw
    refine ⟨x, hx, by omega, ?_⟩
    rw [show c + 1 - (x + 1) = c - x by omega]
    rfl
  | @past n c e he hpast =>
    obtain ⟨hcn, hn⟩ := hrange n c rfl fun own h => h.1
    rw [hl.stamped_of_lt hc (hlog he) hcn hn] at hpast
    have : n - 1 < c := by exact_mod_cast hpast
    omega
  | peek => exact hw

variable [DecidableEq ι]

/-- No turn takes the abort of a published entry back. -/
theorem Turn.aborted (hc : Ctl s) (ht : Turn s s') {n : ℕ} {own' : LogEntry} (hn : n ≤ s.top)
    (hout : ∀ i, (s.pc i).inLock = true → (s.pc i).owned ≠ some n)
    (hown' : s'.log n = some own') :
    ∃ own, s.log n = some own ∧ (own.aborted = true → own'.aborted = true) := by
  cases ht with
  | @store i m own own₁ p hown hs =>
    rw [State.goto_log] at hown'
    by_cases hnm : n = m
    · subst hnm
      rw [State.setEntry_log_self] at hown'
      obtain rfl := Option.some.inj hown'
      rcases hs.kind.2.2.2 with hlock | ⟨-, -, -, hab⟩
      · exact absurd hs.ctl.2.2.1 (hout i hlock)
      · exact ⟨own, (State.deref_eq_some.1 hown).1, hab⟩
    · rw [s.setEntry_log_of_ne own₁ hnm] at hown'
      exact ⟨own', hown', id⟩
  | @create i ws hpc =>
    have htop : s.commitStartedTs = s.top :=
      hc.started_eq (i := i) (by rw [hpc]; rfl) (by rw [hpc]; rfl)
    rw [State.goto_log, createLogEntry_log, if_neg (by omega), State.linkLatest] at hown'
    split_ifs at hown'
    · obtain ⟨own, hown, rfl⟩ := Option.map_eq_some_iff.1 hown'
      exact ⟨own, hown, id⟩
    · exact ⟨own', hown', id⟩
  | delete stop _ =>
    obtain ⟨own, hown, rfl⟩ := Option.map_eq_some_iff.1 hown'
    refine ⟨own, hown, ?_⟩
    split_ifs <;> exact id
  | _ => exact ⟨own', hown', id⟩

/-- Every turn keeps the record of every thread. -/
theorem Walked.turn (hc : Ctl s) (hl : Links s) (hf : Facts s) (ht : Turn s s')
    {l : ι → Option (List ℕ)} (h : ∀ i, Walked s (s.threads i).ts (l i) (s.pc i))
    (hknown : ∀ i n c, s.pc i = .lookup n → s'.pc i = .visit n c →
      (s.threads i).ts ≠ invalidTs) (i : ι) :
    Walked s' (s'.threads i).ts (process (s.pc i) (s'.pc i) (l i)) (s'.pc i) := by
  have hkeeps : ∀ n own', s.pc i = .fill n → s'.log n = some own' →
      ∃ own, s.log n = some own ∧ (own.aborted = true → own'.aborted = true) := by
    intro n own' hp hown'
    have ho : (s.pc i).owned = some n := by rw [hp]; rfl
    refine ht.aborted hc (hc.owned i n ho).2 (fun j hj hjn => ?_) hown'
    obtain rfl := hc.owned_inj j i n hjn ho
    simp [hp, Pc.inLock] at hj
  have hsame : s'.pc i = s.pc i → (s'.threads i).ts = (s.threads i).ts →
      Walked s' (s'.threads i).ts (process (s.pc i) (s'.pc i) (l i)) (s'.pc i) := by
    intro hp hts
    rw [hp, hts, process_self]
    exact (h i).of_keeps hkeeps
  -- a turn of another thread
  have hother : ∀ (s₁ : State ι) (j : ι) (p : Pc), s₁.threads = s.threads → s' = s₁.goto j p →
      i ≠ j → Walked s' (s'.threads i).ts (process (s.pc i) (s'.pc i) (l i)) (s'.pc i) := by
    intro s₁ j p hthr hs' hij
    refine hsame ?_ ?_
    · rw [hs', s₁.goto_pc_of_ne p hij, State.pc, hthr]
      rfl
    · rw [hs', State.goto_ts, hthr]
  -- a turn to a place where nothing is recorded
  have hgoto : ∀ (s₁ : State ι) (j : ι) (p : Pc), s₁.threads = s.threads → s' = s₁.goto j p →
      (∀ ts l, Walked s' ts l p) →
      Walked s' (s'.threads i).ts (process (s.pc i) (s'.pc i) (l i)) (s'.pc i) := by
    intro s₁ j p hthr hs' hp
    by_cases hij : i = j
    · rw [hs', hij, State.goto_pc_self, ← hs']
      exact hp _ _
    · exact hother s₁ j p hthr hs' hij
  cases ht with
  | snapshot j ts hpc _ =>
    have hpc' := State.snapshot_pc hpc ts
    by_cases hij : i = j
    · subst hij
      rw [hpc', hpc]
      trivial
    · exact hsame (hpc' i) (by simp [Function.update_of_ne hij])
  | @move j p hm =>
    by_cases hij : i = j
    · subst hij
      rw [State.goto_pc_self, State.goto_ts]
      exact hm.walked hc hl hf rfl (h i) fun n c hp hp' => hknown i n c hp (by
        rw [State.goto_pc_self, hp'])
    · exact hother s j p rfl rfl hij
  | @store j n own own' p hd hs =>
    by_cases hij : i = j
    · subst hij
      rw [State.goto_pc_self, State.goto_ts, State.setEntry_threads]
      have hw := h i
      generalize s.pc i = q at hs hw
      cases hs with
      | conflict c => exact hw
      | abort =>
        refine .inr (.inr fun own₁ hown₁ => ?_)
        rw [State.goto_log, State.setEntry_log_self] at hown₁
        obtain rfl := Option.some.inj hown₁
        rfl
      | _ => trivial
    · exact hother (s.setEntry n own') j p rfl rfl hij
  | @acquire j ws _ _ =>
    exact hgoto { s with commitLock := some j } j (.create ws) rfl rfl fun _ _ => trivial
  | @createFails j ws _ =>
    exact hgoto { s with commitLock := none } j .idle rfl rfl fun _ _ => trivial
  | @create j ws _ =>
    exact hgoto (s.createLogEntry (s.commitStartedTs + 1) (s.threads j).ts) j _ rfl rfl
      fun _ _ => trivial
  | @started j ws n _ =>
    exact hgoto { s with commitStartedTs := n } j (.write ws n .copy) rfl rfl fun _ _ => trivial
  | @unlock j ws n _ =>
    exact hgoto { s with commitLock := none } j (.check n) rfl rfl fun _ _ => trivial
  | @release j n _ _ =>
    exact hgoto { s with masterTs := n } j (.report n) rfl rfl fun _ _ => trivial
  | delete stop _ => exact hsame rfl rfl

end Turn

/-! ### Whole runs -/

section Main

variable {ι : Type*} [DecidableEq ι]

/-- A read of an entry by thread `i` moves no other thread. -/
theorem withEntry_goto {s s' : State ι} {i : ι} {t : ℕ} {k : LogEntry → State ι}
    (h : s.withEntry i t k = s')
    (hk : ∀ e, k e = s' → ∃ (s₁ : State ι) (p : Pc), s₁.threads = s.threads ∧ s' = s₁.goto i p) :
    ∃ (s₁ : State ι) (p : Pc), s₁.threads = s.threads ∧ s' = s₁.goto i p := by
  unfold State.withEntry at h
  rcases hd : s.deref t with _ | e <;> rw [hd] at h
  · exact ⟨s, .fault, rfl, h.symm⟩
  · exact hk e h

/-- The next access of a thread moves no other thread. -/
theorem next_goto {s s' : State ι} {i : ι} (h : next s i = some s') :
    ∃ (s₁ : State ι) (p : Pc), s₁.threads = s.threads ∧ s' = s₁.goto i p := by
  unfold next at h
  rcases hp : (s.threads i).pc with
    _ | ws | ws | ⟨ws, n, _ | _ | _ | _ | _⟩ | n | n | ⟨n, c⟩ | ⟨n, c⟩ | ⟨n, c⟩ | ⟨n, c⟩ | ⟨n, c⟩ |
    n | n | n | n | _ <;>
    simp only [hp, reduceCtorEq, Option.some.injEq] at h
  case create =>
    split_ifs at h
    obtain rfl := Option.some.inj h
    exact ⟨s.createLogEntry (s.commitStartedTs + 1) (s.threads i).ts, _, rfl, rfl⟩
  case write.started => exact ⟨{ s with commitStartedTs := n }, _, rfl, h.symm⟩
  case write.copy | write.stamp | write.clear | abort | fill =>
    exact withEntry_goto h fun e he => ⟨s.setEntry n _, _, rfl, he.symm⟩
  case write.unlock => exact ⟨{ s with commitLock := none }, _, rfl, h.symm⟩
  case check | lookup => exact ⟨s, _, rfl, h.symm⟩
  case visit | follow | peek | report =>
    exact withEntry_goto h fun e he => ⟨s, _, rfl, he.symm⟩
  case visited =>
    exact withEntry_goto h fun own hs => withEntry_goto hs fun e he => ⟨s, _, rfl, he.symm⟩
  case compare =>
    refine withEntry_goto h fun own hs => withEntry_goto hs fun e he => ?_
    split_ifs at he
    · exact ⟨s.setEntry n { own with aborted := true }, _, rfl, he.symm⟩
    · exact ⟨s, _, rfl, he.symm⟩
  case release =>
    split_ifs at h
    obtain rfl := Option.some.inj h
    exact ⟨{ s with masterTs := n }, _, rfl, rfl⟩

/-- A turn moves no other thread. -/
theorem step_pc_of_ne {s s' : State ι} {a : Act ι} (h : step s a = some s') {j : ι}
    (hj : a.thread ≠ some j) : s'.pc j = s.pc j := by
  have hgoto : ∀ {s₁ : State ι} {i : ι} {p : Pc}, s₁.threads = s.threads → some i ≠ some j →
      (s₁.goto i p).pc j = s.pc j := by
    intro s₁ i p hthr hij
    rw [State.goto_pc_of_ne _ _ (fun h => hij (congrArg some h.symm)), State.pc, hthr]
    rfl
  cases a with
  | checkout i | pause i =>
    simp only [step] at h
    split_ifs at h with hp
    obtain rfl := Option.some.inj h
    exact State.snapshot_pc hp _ j
  | begin i ws =>
    simp only [step] at h
    split_ifs at h
    obtain rfl := Option.some.inj h
    exact hgoto rfl hj
  | interrupt i =>
    simp only [step] at h
    split at h
    · obtain rfl := Option.some.inj h
      exact hgoto rfl hj
    · simp at h
  | acquire i =>
    simp only [step] at h
    split at h
    · split_ifs at h
      obtain rfl := Option.some.inj h
      exact hgoto rfl hj
    · simp at h
  | createFails i =>
    simp only [step] at h
    split at h
    · obtain rfl := Option.some.inj h
      exact hgoto rfl hj
    · simp at h
  | next i =>
    obtain ⟨s₁, p, hthr, rfl⟩ := next_goto h
    exact hgoto hthr hj
  | deleteLog stop =>
    simp only [step] at h
    split_ifs at h
    obtain rfl := Option.some.inj h
    rfl

/-- Who is about to call `sivfs_ts_to_log_entry` goes on by itself. -/
theorem step_lookup {s s' : State ι} {a : Act ι} {i : ι} {n : ℕ} (h : step s a = some s')
    (hpc : s.pc i = .lookup n) (hmoves : s'.pc i ≠ .lookup n) : a = .next i := by
  have hother : ∀ (s₁ : State ι) (j : ι) (p : Pc), s₁.threads = s.threads → s' = s₁.goto j p →
      i = j := by
    intro s₁ j p hthr hs'
    by_contra hij
    rw [hs', s₁.goto_pc_of_ne p hij, State.pc, hthr] at hmoves
    exact hmoves hpc
  have hpc' : (s.threads i).pc = .lookup n := hpc
  cases a with
  | checkout j | pause j =>
    simp only [step] at h
    split_ifs at h with hp
    obtain rfl := Option.some.inj h
    rw [State.snapshot_pc hp] at hmoves
    exact absurd hpc hmoves
  | begin j ws =>
    simp only [step] at h
    split_ifs at h with hp
    obtain rfl := hother s j _ rfl (Option.some.inj h).symm
    simp [hpc'] at hp
  | interrupt j =>
    simp only [step] at h
    split at h
    · rename_i hp
      obtain rfl := hother s j _ rfl (Option.some.inj h).symm
      simp [hpc'] at hp
    · simp at h
  | acquire j =>
    simp only [step] at h
    split at h
    · rename_i hp
      split_ifs at h
      obtain rfl := hother { s with commitLock := some j } j _ rfl (Option.some.inj h).symm
      simp [hpc'] at hp
    · simp at h
  | createFails j =>
    simp only [step] at h
    split at h
    · rename_i hp
      obtain rfl := hother { s with commitLock := none } j _ rfl (Option.some.inj h).symm
      simp [hpc'] at hp
    · simp at h
  | next j =>
    obtain ⟨s₁, p, hthr, hs'⟩ := next_goto h
    rw [hother s₁ j p hthr hs']
  | deleteLog stop =>
    simp only [step] at h
    split_ifs at h
    obtain rfl := Option.some.inj h
    exact absurd hpc hmoves

/-- A turn that cuts no entry from a lost chunk is the turn of the protocol. -/
theorem logStep_turn {s s' : LogState ι} {b : Act ι} (hf : s.chunkFreed = false)
    (h : logStep s (.turn b) = some s') : step s.shared b = some s'.shared := by
  have hmap : ∀ b, (step s.shared b).map (fun shared => { s with shared := shared }) = some s' →
      step s.shared b = some s'.shared := by
    intro b h
    obtain ⟨shared, hstep, rfl⟩ := Option.map_eq_some_iff.1 h
    exact hstep
  cases b with
  | createFails j =>
    simp only [logStep] at h
    split at h
    · split_ifs at h
      exact hmap _ h
    · simp at h
  | next j =>
    simp only [logStep] at h
    split at h
    · obtain ⟨shared, hstep, rfl⟩ := Option.map_eq_some_iff.1 h
      simp only [LogState.place, hf, Bool.false_eq_true, if_false]
      split_ifs <;> exact hstep
    · exact hmap _ h
  | _ => exact hmap _ h

theorem logStep_lookup {s s' : LogState ι} {a : LogAct ι} {i : ι} {n : ℕ}
    (hf : s.chunkFreed = false) (hk : ChunkKept s a) (h : logStep s a = some s')
    (hpc : s.shared.pc i = .lookup n) (hmoves : s'.shared.pc i ≠ .lookup n) :
    a = .turn (.next i) ∧ next s.shared i = some s'.shared := by
  cases a with
  | turn b =>
    have hstep := logStep_turn hf h
    obtain rfl := step_lookup hstep hpc hmoves
    exact ⟨rfl, hstep⟩
  | insertFails j =>
    simp only [logStep] at h
    split at h
    · rename_i ws hcreate
      obtain ⟨shared, hstep, rfl⟩ := Option.map_eq_some_iff.1 h
      rw [if_pos (hk ws hcreate)] at hmoves
      simpa using step_lookup hstep hpc hmoves
    · simp at h

/-- Who goes on from the lookup to an entry has a snapshot. -/
theorem ts_of_lookup {w : Watched ι} {s' : LogState ι} {a : LogAct ι} {i : ι} {n c : ℕ}
    (hf : w.log.chunkFreed = false) (hk : WindowKnown w a) (h : logStep w.log a = some s')
    (hpc : w.log.shared.pc i = .lookup n) (hpc' : s'.shared.pc i = .visit n c) :
    (w.log.shared.threads i).ts ≠ invalidTs := by
  obtain ⟨rfl, hnext⟩ := logStep_lookup hf hk.1 h hpc (by simp [hpc'])
  rcases hk.2 i n rfl hpc with hts | hdel
  · exact hts
  · intro hts
    have hp : (w.log.shared.threads i).pc = .lookup n := hpc
    -- `0 < master_log_deleted_ts`: the lookup is refused
    simp only [next, hp, hts, Option.some.injEq] at hnext
    rw [if_pos (.inr (Nat.pos_of_ne_zero hdel))] at hnext
    rw [← hnext, State.goto_pc_self] at hpc'
    simp at hpc'

theorem log_reachable {w : Watched ι} (h : (watched ι).ReachableWith WindowKnown w) :
    (logProtocol ι).ReachableWith ChunkKept w.log := by
  refine h.invariant (I := fun w => (logProtocol ι).ReachableWith ChunkKept w.log)
    (fun w hi => ?_) fun w a w' _ hi hk hstep => ?_
  · obtain ⟨hinit, -⟩ := hi
    exact .init hinit
  obtain ⟨log, hlog, rfl⟩ := Option.map_eq_some_iff.1 hstep
  exact .step a hi hk.1 hlog

/-- The record is kept along every run. -/
theorem walked {w : Watched ι} (h : (watched ι).ReachableWith WindowKnown w) (i : ι) :
    Walked w.log.shared (w.log.shared.threads i).ts (w.processed i) (w.log.shared.pc i) := by
  refine h.invariant (I := fun w => ∀ i, Walked w.log.shared (w.log.shared.threads i).ts
    (w.processed i) (w.log.shared.pc i)) (fun w hi j => ?_) (fun w a w' hr hi hk hstep => ?_) i
  · obtain ⟨⟨⟨-, -, -, -, -, -, hthr⟩, -⟩, -⟩ := hi
    rw [State.pc, hthr]
    trivial
  · have hlr := log_reachable hr
    obtain ⟨hc, hl, hf, -⟩ := invariants (shared_reachable hlr)
    have hfreed := chunkFreed_eq_false hlr
    obtain ⟨log, hlog, rfl⟩ := Option.map_eq_some_iff.1 hstep
    obtain ⟨-, a', hk', hstep'⟩ := logStep_shared hfreed hk.1 hlog
    exact Walked.turn hc hl hf (step_turn hstep' hk') hi fun j n c hp hp' =>
      ts_of_lookup hfreed hk hlog hp hp'

/-- **The validation window names existing entries** in every state reached by any
interleaving of any number of committers, if who validates has a snapshot or the log has
been deleted from. -/
theorem window_named {w : Watched ι} (h : (watched ι).ReachableWith WindowKnown w) :
    WindowNamed w := by
  obtain ⟨hc, hl, hf, -⟩ := invariants (shared_reachable (log_reachable h))
  have hwalked := walked h
  constructor
  · intro i c hex
    obtain ⟨x, hx, hlt⟩ : ∃ x : ℕ, (w.log.shared.threads i).ts = (x : Ts) ∧ x < c := by
      have hw := hwalked i
      generalize w.log.shared.pc i = p at hw hex
      cases p with
      | visit n d | compare n d | visited n d | follow n d | peek n d =>
        obtain rfl := Option.some.inj hex
        obtain ⟨x, hx, hlt, -⟩ := hw
        exact ⟨x, hx, hlt⟩
      | _ => simp [Pc.examines] at hex
    obtain ⟨n, ho, hin⟩ : ∃ n, (w.log.shared.pc i).owned = some n ∧
        ∀ own, Knows w.log.shared own (w.log.shared.pc i) → InRange own n c := by
      generalize w.log.shared.pc i = p at hex
      cases p with
      | visit n d | compare n d | visited n d | follow n d | peek n d =>
        obtain rfl := Option.some.inj hex
        exact ⟨n, rfl, fun own h => h.1⟩
      | _ => simp [Pc.examines] at hex
    obtain ⟨own, hown⟩ := hl.own_deref hc ho
    have hcn := (hin own (hf.knows i n own ho (State.deref_eq_some.1 hown).1)).lt
    obtain ⟨e, he⟩ := hl.deref_of_snapshot hc hx hlt (hcn.le.trans (hc.owned i n ho).2)
    rw [he]
    rfl
  · intro i n hp
    have ho : (w.log.shared.pc i).owned = some n := by rw [hp]; rfl
    have hw := hwalked i
    rw [hp] at hw
    rcases hw with hw | hw | hab
    · exact .inl hw
    · refine .inr (.inl ⟨hw, fun t hxt htn => ?_⟩)
      obtain ⟨x, hx, -⟩ := hw
      rw [hx] at hxt
      have hn := (hc.owned i n ho).2
      obtain ⟨e, he⟩ := hl.deref_of_snapshot hc hx (WithTop.coe_lt_coe.1 hxt) (htn.le.trans hn)
      exact ⟨e, he, hl.stamped_of_lt hc (State.deref_eq_some.1 he).1 htn hn⟩
    · obtain ⟨own, hown⟩ := hl.own_deref hc ho
      exact .inr (.inr ⟨own, hown, hab own (State.deref_eq_some.1 hown).1⟩)

end Main

/-- Two threads before their first transaction. -/
def unwatched : Watched Bool where
  log :=
    { shared := fresh
      bytesRemainingChunk := 0
      chunk := []
      chunkFreed := false }
  processed := fun _ => none

/-- Nothing is deleted, no insertion fails, and who has no snapshot does not go on. -/
def keepsWindow : Watched Bool → LogAct Bool → Bool
  | _, .turn (.deleteLog _) => false
  | w, .turn (.next i) => (w.log.shared.threads i).ts ≠ invalidTs
  | _, .turn _ => true
  | _, .insertFails _ => false

/-- The second of `twoCommits` has validated against the first. -/
theorem window_named_twoCommits : ∃ w, (watched Bool).ReachableWith WindowKnown w ∧
    w.log.shared.pc true = .fill 2 ∧ w.processed true = some [1] ∧ WindowNamed w := by
  have hrun : ((watched Bool).run keepsWindow unwatched ((twoCommits.take 23).map .turn)).map
      (fun w => (w.log.shared.pc true, w.processed true)) = some (.fill 2, some [1]) := by decide
  obtain ⟨w, hw, hfields⟩ := Option.map_eq_some_iff.1 hrun
  obtain ⟨hpc, hl⟩ := Prod.mk.inj hfields
  have hreach : (watched Bool).ReachableWith WindowKnown w := by
    refine Machine.ReachableWith.run (fun w a ha => ?_)
      (.init ⟨⟨⟨rfl, rfl, rfl, fun _ => rfl, rfl, rfl, fun _ => rfl⟩, rfl, rfl, rfl⟩,
        fun _ => rfl⟩) hw
    cases a with
    | turn a =>
      cases a with
      | deleteLog stop => simp [keepsWindow] at ha
      | next i => exact ⟨trivial, fun j n hj _ => .inl (by cases hj; simpa [keepsWindow] using ha)⟩
      | _ => exact ⟨trivial, fun j n hj => by simp at hj⟩
    | insertFails i => simp [keepsWindow] at ha
  exact ⟨w, hreach, hpc, hl, window_named hreach⟩

/-- A thread without a snapshot is the first to commit. -/
def unknownWindow : List (LogAct Unit) :=
  [.turn (.begin () [⟨7, 0, 0, 0, 1⟩]), .turn (.acquire ())] ++ .replicate 8 (.turn (.next ()))

/-- It comes to the entry before the first one, which is not there, and reads it. -/
theorem not_window_named : ∃ w w', (watched Unit).ReachableWith (fun w a => ChunkKept w.log a) w ∧
    w.log.shared.pc () = .visit 1 0 ∧ w.log.shared.deref 0 = none ∧ ¬WindowNamed w ∧
    (watched Unit).step w (.turn (.next ())) = some w' ∧ w'.log.shared.pc () = .fault := by
  have hrun : ((watched Unit).run (fun w => keepsChunk w.log) ⟨emptyLog, fun _ => none⟩
      unknownWindow).bind (fun w => ((watched Unit).step w (.turn (.next ()))).map fun w' =>
        (w.log.shared.pc (), w.log.shared.deref 0, w'.log.shared.pc ())) =
      some (.visit 1 0, none, .fault) := by decide
  obtain ⟨w, hw, hstep⟩ := Option.bind_eq_some_iff.1 hrun
  obtain ⟨w', hw', hfields⟩ := Option.map_eq_some_iff.1 hstep
  obtain ⟨hpc, hderef, hfault⟩ : w.log.shared.pc () = .visit 1 0 ∧ w.log.shared.deref 0 = none ∧
      w'.log.shared.pc () = .fault := by simpa using hfields
  refine ⟨w, w', ?_, hpc, hderef, fun h => ?_, hw', hfault⟩
  · refine Machine.ReachableWith.run (fun w a ha => ?_)
      (.init ⟨⟨⟨rfl, rfl, rfl, fun _ => rfl, rfl, rfl, fun _ => rfl⟩, rfl, rfl, rfl⟩,
        fun _ => rfl⟩) hw
    cases a with
    | turn a =>
      cases a with
      | deleteLog stop => simp [keepsChunk] at ha
      | _ => trivial
    | insertFails i => simp [keepsChunk] at ha
  · have := h.examined () 0 (by rw [hpc]; rfl)
    simp [hderef] at this

end Commit
end Sivfs
