/-
# What TinySTM reads

A read of TinySTM is consistent if it falls into none of three windows (`Guarded`).  The
argument is about the committed states by timestamp:

* a lock names the last transaction that changed words of it: between `lastCommit l` and
  now the committed states agree on the words of `l`, and the timestamp in the table is at
  least `lastCommit l` unless a transaction is about to store its own there;
* so a word loaded under the timestamp `ts` is the word of every committed state from `ts`
  to the load, and an entry `(l, ts)` of the read set that is still valid says that nothing
  of `l` has changed up to the clock value loaded before the validation;
* a thread keeps the reads of its transaction in the committed state of
  `readset_validated_ts`: a read with an older timestamp belongs to it as it is, a newer one
  moves all reads to a newer state by a validation.

`LocalOk` is what is known of one thread, and `Env` what a turn of another thread may do to
it.
-/

import Sivfs.Locktable.TinyStm
import Mathlib.Order.Lattice.Nat

namespace Sivfs
namespace Locktable
namespace TinyStm

open History UndoLog

variable {ι : Type} [DecidableEq ι] {cfg : Config} {s s' : State ι} {t t' : Local} {i j : ι}
  {l a v : ℕ}

/-! ### Phases of a thread -/

/-- The locks a thread holds; while it gives them back, those that are left. -/
def Local.held (t : Local) : List ℕ :=
  match t.pc with
  | .stampTs rest => rest
  | .unlock rest => rest
  | _ => t.state.locksHeld

/-- The locks it holds without having stored its timestamp there. -/
def Local.unstamped (t : Local) : List ℕ :=
  match t.pc with
  | .stampTs rest => rest
  | .unlock rest => rest.tail
  | _ => t.state.locksHeld

/-- The undo entries that take memory back to the committed state. -/
def Local.pending (t : Local) : List (ℕ × ℕ) :=
  match t.pc with
  | .undo rest => rest.reverse
  | _ => t.state.writeset

/-- The transaction has no commit timestamp yet. -/
def Pc.active : Pc → Bool
  | .undo _ => false
  | .stampTs _ => false
  | .unlock _ => false
  | .loadStart false => false
  | _ => true

/-- The transaction has its read set, and no store is under way. -/
def Pc.plain : Pc → Bool
  | .store _ _ => false
  | .fetchAdd => false
  | pc => pc.active

/-- Within the calls, nothing has been given back. -/
theorem Pc.active_of_plain {pc : Pc} (h : pc.plain = true) : pc.active = true := by
  cases pc <;> simp_all [Pc.plain, Pc.active]

/-- Nor is the clock about to be moved. -/
theorem Pc.ne_fetchAdd_of_plain {pc : Pc} (h : pc.plain = true) : pc ≠ .fetchAdd := by
  rintro rfl
  cases h

/-- Until then, a thread holds the locks it has taken. -/
theorem Local.held_of_active (h : t.pc.active = true) : t.held = t.state.locksHeld := by
  rw [held]
  cases hpc : t.pc <;> simp_all [Pc.active]

/-- None of them has a new timestamp. -/
theorem Local.unstamped_of_active (h : t.pc.active = true) : t.unstamped = t.state.locksHeld := by
  rw [unstamped]
  cases hpc : t.pc <;> simp_all [Pc.active]

/-- All its words can be undone. -/
theorem Local.pending_of_active (h : t.pc.active = true) : t.pending = t.state.writeset := by
  rw [pending]
  cases hpc : t.pc <;> simp_all [Pc.active]

/-- Locks are stamped before they are given back. -/
theorem Local.unstamped_sublist : t.unstamped.Sublist t.held := by
  rw [unstamped, held]
  cases hpc : t.pc with
  | unlock rest => exact List.tail_sublist rest
  | _ => exact List.Sublist.refl _

/-- So what is not stamped is still held. -/
theorem Local.held_of_unstamped (h : l ∈ t.unstamped) : l ∈ t.held :=
  Local.unstamped_sublist.subset h

/-! ### What is known of a thread -/

/-- A word loaded under the timestamp `x`: it is what the transaction wrote there, or it is
in every committed state from `x` to the time of the load. -/
def SampleOk (s : State ι) (t : Local) (a v x : ℕ) : Prop :=
  (Writes t.txn a → ∀ m, replay m t.txn a = v) ∧
    (¬Writes t.txn a → ∃ g ≤ s.globalTs, t.state.readsetValidatedTs ≤ g ∧ x ≤ g ∧
      ∀ k, x ≤ k → k ≤ g → s.committedAt k a = v)

/-- The word being read is in the committed state `n` and in the one of its own timestamp. -/
def CallerOk (cfg : Config) (s : State ι) (t : Local) (entry : ReadEntry) (n : ℕ) : Caller → Prop
  | .read a v => entry.lockid = cfg.addrToLock a ∧ (Writes t.txn a → ∀ m, replay m t.txn a = v) ∧
      (¬Writes t.txn a → s.committedAt n a = v ∧ s.committedAt entry.ts a = v)
  | .write a _ => cfg.addrToLock a ∈ t.state.locksHeld

/-- On the words of the lock of `r` the committed state `n` is the one of `r.ts`. -/
def EntryOk (cfg : Config) (s : State ι) (n : ℕ) (r : ReadEntry) : Prop :=
  ∀ a, cfg.addrToLock a = r.lockid → s.committedAt n a = s.committedAt r.ts a

/-- A validation against the clock value `n` has come to `rest`. -/
def LoopOk (cfg : Config) (s : State ι) (t : Local) (rest : List ReadEntry) : Loop → Prop
  | .entry entry n caller => n ≤ s.globalTs ∧ entry.ts ≤ n ∧ (∀ r ∈ t.state.readset, r.ts ≤ n) ∧
      (∀ r ∈ rest, r ∈ t.state.readset) ∧
      (t.state.aborted = true ∨ ∀ r ∈ t.state.readset, r ∈ rest ∨ EntryOk cfg s n r) ∧
      CallerOk cfg s t entry n caller
  | .commit => True

/-- Nothing of the lock `l` changed between the timestamp `x`, which was there when the owner
was loaded, and the clock value of the validation. -/
def OwnerOk (cfg : Config) (s : State ι) (l : ℕ) : Loop → Prop
  | .entry _ n _ => ∃ x ≤ s.ts l, ∀ a k, cfg.addrToLock a = l → x ≤ k → k ≤ n →
      s.committedAt n a = s.committedAt k a
  | .commit => True

/-- What holds at a program counter. -/
def PcOk (cfg : Config) (s : State ι) (t : Local) : Prop :=
  match t.pc with
  | .readWord a _ ts => ts ≤ s.ts (cfg.addrToLock a)
  | .recheckTs a _ ts v foreign => foreign = false →
      ∃ x, ts ≤ x ∧ x ≤ s.ts (cfg.addrToLock a) ∧ SampleOk s t a v x
  | .recheckOwner a _ ts v foreign => foreign = false → ts ≤ s.globalTs ∧ SampleOk s t a v ts
  | .loadClock entry caller => entry.ts ≤ s.globalTs ∧ CallerOk cfg s t entry entry.ts caller
  | .validateOwner rest loop => LoopOk cfg s t rest loop
  | .validateTs rest owner loop => LoopOk cfg s t rest loop ∧
      ∀ r ∈ rest.head?, mayRead owner t.state.thrId = true → OwnerOk cfg s r.lockid loop
  | .entryTs a _ => cfg.addrToLock a ∈ t.state.locksHeld
  | .loadOld a _ => cfg.addrToLock a ∈ t.state.locksHeld
  | .store a _ => cfg.addrToLock a ∈ t.state.locksHeld ∧ a ∈ t.state.writeset.map Prod.fst
  | .stampTs _ => t.state.writeset = []
  | .unlock _ => t.state.writeset = []
  | .loadStart false => t.state.writeset = [] ∧ t.state.locksHeld = []
  | _ => True

/-- **What is known of a thread.** -/
structure LocalOk (cfg : Config) (s : State ι) (t : Local) : Prop where
  validated : t.state.readsetValidatedTs ≤ s.globalTs
  reads : Reads (s.committedAt t.state.readsetValidatedTs) t.txn
  entries : ∀ r ∈ t.state.readset, r.ts ≤ s.globalTs
  /-- A memory that agrees with every entry of the read set reads as the transaction did. -/
  covered : t.pc.active = true → t.pc ≠ .fetchAdd → ∀ m : ℕ → ℕ,
    (∀ r ∈ t.state.readset, ∀ a, cfg.addrToLock a = r.lockid → m a = s.committedAt r.ts a) →
      Reads m t.txn
  writes : t.pc.active = true → ∀ a, Writes t.txn a → a ∈ t.state.writeset.map Prod.fst
  written : t.pc.active = true → ∀ a ∈ t.state.writeset.map Prod.fst,
    Writes t.txn a ∨ ∃ v, t.pc = .store a v
  replay : t.pc.active = true → ∀ a m, Writes t.txn a → replay m t.txn a = s.mem a
  undo : ∀ a, cfg.addrToLock a ∈ t.held → rollback t.pending s.mem a = s.committedAt s.globalTs a
  locked : ∀ a ∈ t.pending.map Prod.fst, cfg.addrToLock a ∈ t.unstamped
  nodup : t.held.Nodup
  fresh : t.pc.active = true → ∀ l ∈ t.held, s.lastCommit l ≤ s.ts l
  stamping : t.pc.active = false → t.state.commitTs ≤ s.globalTs ∧
    ∀ l ∈ t.unstamped, s.ts l < t.state.commitTs ∧ s.lastCommit l ≤ t.state.commitTs
  pc : PcOk cfg s t

omit [DecidableEq ι] in
/-- What is known at a place. -/
theorem LocalOk.pcOk (h : LocalOk cfg s t) {pc : Pc} (hpc : t.pc = pc) :
    PcOk cfg s ⟨t.state, pc, t.txn⟩ :=
  hpc ▸ h.pc

/-! ### Turns of other threads -/

/-- What a turn of another thread may do, as the thread `t` sees it. -/
structure Env (cfg : Config) (t : Local) (s s' : State ι) : Prop where
  globalTs : s.globalTs ≤ s'.globalTs
  committedAt : ∀ k ≤ s.globalTs, s'.committedAt k = s.committedAt k
  ts : ∀ l, s.ts l ≤ s'.ts l
  held : ∀ l ∈ t.held, s'.ts l = s.ts l ∧ s'.lastCommit l = s.lastCommit l
  words : ∀ a, cfg.addrToLock a ∈ t.held → s'.mem a = s.mem a ∧
    s'.committedAt s'.globalTs a = s.committedAt s.globalTs a

section Env

omit [DecidableEq ι] in
/-- Other threads leave a sample what it is. -/
theorem SampleOk.env {x : ℕ} (h : SampleOk s t a v x) (he : Env cfg t s s') :
    SampleOk s' t a v x := by
  refine ⟨h.1, fun hw => ?_⟩
  obtain ⟨g, hg, hval, hx, hk⟩ := h.2 hw
  refine ⟨g, hg.trans he.globalTs, hval, hx, fun k hxk hkg => ?_⟩
  rw [he.committedAt k (hkg.trans hg)]
  exact hk k hxk hkg

omit [DecidableEq ι] in
/-- The same for what a validation returns to. -/
theorem CallerOk.env {entry : ReadEntry} {n : ℕ} {caller : Caller}
    (h : CallerOk cfg s t entry n caller) (he : Env cfg t s s') (hn : n ≤ s.globalTs)
    (hts : entry.ts ≤ s.globalTs) : CallerOk cfg s' t entry n caller := by
  cases caller with
  | read a v =>
    refine ⟨h.1, h.2.1, fun hw => ?_⟩
    rw [he.committedAt n hn, he.committedAt entry.ts hts]
    exact h.2.2 hw
  | write a v => exact h

omit [DecidableEq ι] in
/-- An entry that is valid at `n` stays valid at `n`. -/
theorem EntryOk.env {n : ℕ} {r : ReadEntry} (h : EntryOk cfg s n r) (he : Env cfg t s s')
    (hn : n ≤ s.globalTs) (hr : r.ts ≤ s.globalTs) : EntryOk cfg s' n r := fun a ha => by
  rw [he.committedAt n hn, he.committedAt r.ts hr]
  exact h a ha

omit [DecidableEq ι] in
/-- The same for the entries that a loop has behind it. -/
theorem LoopOk.env {rest : List ReadEntry} {loop : Loop} (h : LoopOk cfg s t rest loop)
    (he : Env cfg t s s') : LoopOk cfg s' t rest loop := by
  cases loop with
  | entry entry n caller =>
    obtain ⟨hn, hts, hle, hsub, hok, hcaller⟩ := h
    refine ⟨hn.trans he.globalTs, hts, hle, hsub, hok.imp_right fun hok r hr => ?_,
      hcaller.env he hn (hts.trans hn)⟩
    exact (hok r hr).imp_right fun h => h.env he hn ((hle r hr).trans hn)
  | commit => trivial

omit [DecidableEq ι] in
/-- The same for an owner that was read. -/
theorem OwnerOk.env {loop : Loop} {rest : List ReadEntry} (h : OwnerOk cfg s l loop)
    (hloop : LoopOk cfg s t rest loop) (he : Env cfg t s s') : OwnerOk cfg s' l loop := by
  cases loop with
  | entry entry n caller =>
    obtain ⟨x, hx, hk⟩ := h
    refine ⟨x, hx.trans (he.ts l), fun a k ha hxk hkn => ?_⟩
    rw [he.committedAt n hloop.1, he.committedAt k (hkn.trans hloop.1)]
    exact hk a k ha hxk hkn
  | commit => trivial

omit [DecidableEq ι] in
/-- **What is known at a place** does not depend on what the others do. -/
theorem PcOk.env (h : PcOk cfg s t) (he : Env cfg t s s') : PcOk cfg s' t := by
  unfold PcOk at h ⊢
  cases hpc : t.pc <;> simp only [hpc] at h ⊢
  case readWord a owner ts => exact h.trans (he.ts _)
  case recheckTs a owner ts v foreign =>
    intro hf
    obtain ⟨x, hx, hxs, hsample⟩ := h hf
    exact ⟨x, hx, hxs.trans (he.ts _), hsample.env he⟩
  case recheckOwner a owner ts v foreign =>
    exact fun hf => ⟨(h hf).1.trans he.globalTs, (h hf).2.env he⟩
  case loadClock entry caller => exact ⟨h.1.trans he.globalTs, h.2.env he h.1 h.1⟩
  case validateOwner rest loop => exact h.env he
  case validateTs rest owner loop =>
    exact ⟨h.1.env he, fun r hr hown => (h.2 r hr hown).env h.1 he⟩
  case loadStart opens =>
    cases opens with
    | true => trivial
    | false => exact h
  all_goals exact h

omit [DecidableEq ι] in
/-- **What is known of a thread is not disturbed by others.** -/
theorem LocalOk.env (h : LocalOk cfg s t) (he : Env cfg t s s') : LocalOk cfg s' t where
  validated := h.validated.trans he.globalTs
  reads := by
    rw [he.committedAt _ h.validated]
    exact h.reads
  entries r hr := (h.entries r hr).trans he.globalTs
  covered hact hfetch m hm := h.covered hact hfetch m fun r hr a ha => by
    rw [hm r hr a ha, he.committedAt _ (h.entries r hr)]
  writes := h.writes
  written := h.written
  replay hact a m hw := by
    have hlock := h.locked a (by rw [Local.pending_of_active hact]; exact h.writes hact a hw)
    rw [h.replay hact a m hw, (he.words a (Local.held_of_unstamped hlock)).1]
  undo a ha := by
    rw [rollback_congr fun _ => (he.words a ha).1, h.undo a ha, (he.words a ha).2]
  locked := h.locked
  nodup := h.nodup
  fresh hact l hl := by
    rw [(he.held l hl).1, (he.held l hl).2]
    exact h.fresh hact l hl
  stamping hact := by
    refine ⟨(h.stamping hact).1.trans he.globalTs, fun l hl => ?_⟩
    have hheld := Local.held_of_unstamped hl
    rw [(he.held l hheld).1, (he.held l hheld).2]
    exact (h.stamping hact).2 l hl
  pc := h.pc.env he

end Env

/-! ### Turns of the thread itself -/

section Own

omit [DecidableEq ι] in
/-- Every undo entry is for a write, unless its store is still to come. -/
theorem LocalOk.writes_of_plain (h : LocalOk cfg s t) (hp : t.pc.plain = true)
    (ha : a ∈ t.state.writeset.map Prod.fst) : Writes t.txn a := by
  refine (h.written (Pc.active_of_plain hp) a ha).resolve_right ?_
  rintro ⟨v, heq⟩
  rw [heq] at hp
  cases hp

omit [DecidableEq ι] in
/-- **A thread goes on** without changing its lists. -/
theorem LocalOk.move (h : LocalOk cfg s t) (hp : t.pc.plain = true) {inTxn aborted : Bool}
    {pc : Pc} (hp' : pc.plain = true)
    (hpc : PcOk cfg s ⟨{ t.state with inTxn := inTxn, aborted := aborted }, pc, t.txn⟩) :
    LocalOk cfg s ⟨{ t.state with inTxn := inTxn, aborted := aborted }, pc, t.txn⟩ := by
  set t' : Local := ⟨{ t.state with inTxn := inTxn, aborted := aborted }, pc, t.txn⟩
  have hact := Pc.active_of_plain hp
  have hact' : t'.pc.active = true := Pc.active_of_plain hp'
  have hfetch := Pc.ne_fetchAdd_of_plain hp
  have hheld : t'.held = t.held := by
    rw [Local.held_of_active hact, Local.held_of_active hact']
  have hunstamped : t'.unstamped = t.unstamped := by
    rw [Local.unstamped_of_active hact, Local.unstamped_of_active hact']
  have hpending : t'.pending = t.pending := by
    rw [Local.pending_of_active hact, Local.pending_of_active hact']
  refine ⟨h.validated, h.reads, h.entries, fun _ _ => h.covered hact hfetch, fun _ => h.writes hact,
    fun _ a ha => .inl (h.writes_of_plain hp ha), fun _ => h.replay hact, ?_, ?_, ?_, ?_,
    fun hno => ?_, hpc⟩
  · rw [hheld, hpending]
    exact h.undo
  · rw [hpending, hunstamped]
    exact h.locked
  · rw [hheld]
    exact h.nodup
  · rw [hheld]
    exact fun _ => h.fresh hact
  · exact Bool.noConfusion (hact'.symm.trans hno)

omit [DecidableEq ι] in
/-- A thread goes on to another place in the calls. -/
theorem LocalOk.goto (h : LocalOk cfg s t) (hp : t.pc.plain = true) {pc : Pc}
    (hp' : pc.plain = true) (hpc : PcOk cfg s (t.goto pc)) : LocalOk cfg s (t.goto pc) :=
  h.move hp hp' hpc

omit [DecidableEq ι] in
/-- It may always give up. -/
theorem LocalOk.throwAborted (h : LocalOk cfg s t) (hp : t.pc.plain = true) :
    LocalOk cfg s t.throwAborted :=
  h.move hp rfl trivial

omit [DecidableEq ι] in
/-- The reads are in a committed state that is not older. -/
theorem LocalOk.setValidated (h : LocalOk cfg s t) (hp : t.pc.plain = true) {n : ℕ}
    (hn : n ≤ s.globalTs) (hreads : Reads (s.committedAt n) t.txn) :
    LocalOk cfg s ⟨{ t.state with readsetValidatedTs := n }, .idle, t.txn⟩ := by
  replace h : LocalOk cfg s (t.goto .idle) := h.goto hp rfl trivial
  exact ⟨hn, hreads, h.entries, h.covered, h.writes, h.written, h.replay, h.undo, h.locked,
    h.nodup, h.fresh, h.stamping, trivial⟩

omit [DecidableEq ι] in
/-- **An entry is added to the read set**, and a read returns. -/
theorem LocalOk.push (h : LocalOk cfg s t) (hp : t.pc.plain = true) {entry : ReadEntry}
    {caller : Caller} (hts : entry.ts ≤ s.globalTs)
    (hc : CallerOk cfg s t entry t.state.readsetValidatedTs caller) :
    LocalOk cfg s (t.push entry caller) := by
  replace h : LocalOk cfg s (t.goto .idle) := h.goto hp rfl trivial
  obtain ⟨state, pc, txn⟩ := t
  have hentries : ∀ r ∈ state.readset ++ [entry], r.ts ≤ s.globalTs := by
    intro r hr
    rcases List.mem_append.1 hr with hr | hr
    · exact h.entries r hr
    · rwa [List.mem_singleton.1 hr]
  cases caller with
  | read a v =>
    obtain ⟨hlock, hown, hother⟩ := hc
    have hread (m : ℕ → ℕ) (hm : ¬Writes txn a → m a = v) : History.replay m txn a = v := by
      by_cases hw : Writes txn a
      · exact hown hw m
      · rw [replay_of_not_writes hw, hm hw]
    refine ⟨h.validated, reads_read.2 ⟨h.reads, hread _ fun hw => (hother hw).1⟩, hentries,
      fun hact hfetch m hm => reads_read.2 ⟨h.covered hact hfetch m fun r hr b hb =>
        hm r (List.mem_append_left _ hr) b hb, hread m fun hw => ?_⟩,
      fun hact b hb => h.writes rfl b (writes_read.1 hb),
      fun hact b hb => .inl (writes_read.2 (h.writes_of_plain rfl hb)),
      fun hact b m hb => by
        rw [← h.replay rfl b m (writes_read.1 hb)]
        exact congrFun replay_read b, h.undo, h.locked, h.nodup, h.fresh, h.stamping, trivial⟩
    rw [hm entry (List.mem_append_right _ (List.mem_singleton_self _)) a hlock.symm]
    exact (hother hw).2
  | write a v =>
    exact ⟨h.validated, h.reads, hentries,
      fun hact hfetch m hm => h.covered rfl (by simp [Local.goto]) m
      fun r hr b hb => hm r (List.mem_append_left _ hr) b hb, fun _ => h.writes rfl,
      fun _ b hb => .inl (h.writes_of_plain rfl hb), fun _ => h.replay rfl,
      h.undo, h.locked, h.nodup, fun _ => h.fresh rfl, fun hno => Bool.noConfusion hno, hc⟩

omit [DecidableEq ι] in
/-- `locktable_add_read_set_entry` of a word whose lock is held, or that is in the committed
states from its timestamp to one that is not older than the reads. -/
theorem LocalOk.addReadSetEntry (h : LocalOk cfg s t) (hp : t.pc.plain = true) {entry : ReadEntry}
    {caller : Caller} (hts : entry.ts ≤ s.globalTs)
    (hc : ∀ n, n = entry.ts ∨ entry.ts ≤ n ∧ n = t.state.readsetValidatedTs →
      CallerOk cfg s t entry n caller) : LocalOk cfg s (t.addReadSetEntry entry caller) := by
  rw [Local.addReadSetEntry]
  split_ifs with hnew
  · exact h.goto hp rfl ⟨hts, hc entry.ts (.inl rfl)⟩
  · exact h.push hp hts (hc _ (.inr ⟨Nat.le_of_not_lt hnew, rfl⟩))

omit [DecidableEq ι] in
/-- **The end of a validation**: all reads are in the committed state of the clock value. -/
theorem LocalOk.finishEntry (h : LocalOk cfg s t) (hp : t.pc.plain = true) {entry : ReadEntry}
    {n : ℕ} {caller : Caller} (hloop : LoopOk cfg s t [] (.entry entry n caller)) :
    LocalOk cfg s (t.finishLoop (.entry entry n caller)) := by
  obtain ⟨hn, hts, hle, -, hok, hcaller⟩ := hloop
  rw [Local.finishLoop]
  split_ifs with haborted
  · exact h.goto hp rfl trivial
  · have hvalid (r : ReadEntry) (hr : r ∈ t.state.readset) : EntryOk cfg s n r :=
      ((hok.resolve_left haborted) r hr).resolve_left (List.not_mem_nil)
    have hreads : Reads (s.committedAt n) t.txn :=
      h.covered (Pc.active_of_plain hp) (Pc.ne_fetchAdd_of_plain hp) _ fun r hr => hvalid r hr
    refine (h.setValidated hp hn hreads).push rfl (hts.trans hn) ?_
    cases caller with
    | read a v => exact hcaller
    | write a v => exact hcaller

omit [DecidableEq ι] in
/-- The read set is given up for the commit timestamp. -/
theorem LocalOk.finishCommit (h : LocalOk cfg s t) (hp : t.pc.plain = true) :
    LocalOk cfg s (t.finishLoop .commit) := by
  replace h : LocalOk cfg s (t.goto .idle) := h.goto hp rfl trivial
  exact ⟨h.validated, h.reads, fun r hr => absurd hr List.not_mem_nil,
    fun _ hfetch => absurd rfl hfetch, fun _ => h.writes rfl,
    fun _ b hb => .inl (h.writes_of_plain rfl hb), fun _ => h.replay rfl,
    h.undo, h.locked, h.nodup, fun _ => h.fresh rfl, fun hno => Bool.noConfusion hno, trivial⟩

omit [DecidableEq ι] in
/-- A validation goes on, or it is over. -/
theorem LocalOk.validate (h : LocalOk cfg s t) (hp : t.pc.plain = true) {rest : List ReadEntry}
    {loop : Loop} (hloop : LoopOk cfg s t rest loop) : LocalOk cfg s (t.validate rest loop) := by
  rw [Local.validate]
  split_ifs with hrest
  · subst hrest
    cases loop with
    | entry entry n caller => exact h.finishEntry hp hloop
    | commit => exact h.finishCommit hp
  · refine h.goto hp rfl ?_
    cases loop with
    | entry entry n caller => exact hloop
    | commit => trivial

omit [DecidableEq ι] in
/-- An entry is looked at: it is valid, or the thread is aborted at the end of the loop. -/
theorem LocalOk.validateTs (h : LocalOk cfg s t) {r : ReadEntry} {rest : List ReadEntry}
    {owner : ℕ} {loop : Loop} (hpc : t.pc = .validateTs (r :: rest) owner loop) :
    LocalOk cfg s (if mayRead owner t.state.thrId ∧ r.ts = s.ts r.lockid then t.validate rest loop
      else { t with state := { t.state with aborted := true } }.validate rest loop) := by
  obtain ⟨state, pc, txn⟩ := t
  obtain rfl : pc = _ := hpc
  have haborted : LocalOk cfg s ⟨{ state with aborted := true }, .idle, txn⟩ :=
    h.move rfl rfl trivial
  have hpcOk := h.pc
  cases loop with
  | commit =>
    split_ifs with hvalid
    · exact h.validate rfl trivial
    · exact haborted.validate rfl trivial
  | entry entry n caller =>
    obtain ⟨⟨hn, hts, hle, hsub, hok, hcaller⟩, howner⟩ := hpcOk
    have hr : r ∈ state.readset := hsub r (List.mem_cons_self ..)
    have hrest (r' : ReadEntry) (hr' : r' ∈ rest) := hsub r' (List.mem_cons_of_mem _ hr')
    split_ifs with hvalid
    · refine h.validate rfl ⟨hn, hts, hle, hrest, hok.imp_right fun hok r' hr' => ?_, hcaller⟩
      rcases hok r' hr' with hmem | hentry
      · rcases List.mem_cons.1 hmem with rfl | hmem
        · -- The timestamp is still the one of the entry, so nothing changed up to `n`.
          obtain ⟨x, hx, hk⟩ := howner r' rfl hvalid.1
          exact .inr fun a ha => hk a r'.ts ha (hvalid.2 ▸ hx) (hle r' hr)
        · exact .inl hmem
      · exact .inr hentry
    · refine haborted.validate rfl ⟨hn, hts, hle, hrest,
        .inl rfl, ?_⟩
      cases caller with
      | read a v => exact hcaller
      | write a v => exact hcaller

omit [DecidableEq ι] in
/-- A free lock is taken. -/
theorem LocalOk.take (h : LocalOk cfg s t) (hpc : t.pc = .cas a v)
    (hnew : cfg.addrToLock a ∉ t.state.locksHeld)
    (hfresh : s.lastCommit (cfg.addrToLock a) ≤ s.ts (cfg.addrToLock a))
    (hmem : ∀ b, cfg.addrToLock b = cfg.addrToLock a → s.mem b = s.committedAt s.globalTs b) :
    LocalOk cfg s ⟨{ t.state with locksHeld := t.state.locksHeld ++ [cfg.addrToLock a] },
      .entryTs a v, t.txn⟩ := by
  obtain ⟨state, pc, txn⟩ := t
  obtain rfl : pc = _ := hpc
  refine ⟨h.validated, h.reads, h.entries, fun _ _ => h.covered rfl (by simp), h.writes,
    fun _ b hb => .inl (h.writes_of_plain rfl hb), h.replay, fun b hb => ?_,
    fun b hb => List.mem_append_left _ (h.locked b hb), ?_, fun _ l hl => ?_,
    fun hno => Bool.noConfusion hno, List.mem_append_right _ (List.mem_singleton_self _)⟩
  · rcases List.mem_append.1 hb with hb | hb
    · exact h.undo b hb
    · have hlock := List.mem_singleton.1 hb
      refine (rollback_of_not_mem fun hb => hnew ?_).trans (hmem b hlock)
      rw [← hlock]
      exact h.locked b hb
  · exact List.nodup_append.2 ⟨h.nodup, List.nodup_singleton _, fun l hl l' hl' => by
      rintro rfl
      rw [List.mem_singleton.1 hl'] at hl
      exact hnew hl⟩
  · rcases List.mem_append.1 hl with hl | hl
    · exact h.fresh rfl l hl
    · rw [List.mem_singleton.1 hl]
      exact hfresh

omit [DecidableEq ι] in
/-- The undo entry of a store. -/
theorem LocalOk.loadOld (h : LocalOk cfg s t) (hpc : t.pc = .loadOld a v) :
    LocalOk cfg s ⟨{ t.state with writeset := t.state.writeset ++ [(a, s.mem a)] },
      .store a v, t.txn⟩ := by
  obtain ⟨state, pc, txn⟩ := t
  obtain rfl : pc = _ := hpc
  have hlock : cfg.addrToLock a ∈ state.locksHeld := h.pc
  have hmap : (state.writeset ++ [(a, s.mem a)]).map Prod.fst =
      state.writeset.map Prod.fst ++ [a] :=
    List.map_append
  refine ⟨h.validated, h.reads, h.entries, fun _ _ => h.covered rfl (by simp), fun _ b hb => ?_,
    fun _ b hb => ?_, h.replay, fun b hb => ?_, fun b hb => ?_, h.nodup, h.fresh,
    fun hno => Bool.noConfusion hno, hlock, ?_⟩
  · exact hmap ▸ List.mem_append_left _ (h.writes rfl b hb)
  · rcases List.mem_append.1 (hmap ▸ hb) with hb | hb
    · exact .inl (h.writes_of_plain rfl hb)
    · rw [List.mem_singleton.1 hb]
      exact .inr ⟨v, rfl⟩
  · refine Eq.trans ?_ (h.undo b hb)
    change rollback (state.writeset ++ [(a, s.mem a)]) s.mem b = rollback state.writeset s.mem b
    rw [rollback_snoc, Function.update_eq_self]
  · rcases List.mem_append.1 (hmap ▸ hb) with hb | hb
    · exact h.locked b hb
    · rw [List.mem_singleton.1 hb]
      exact hlock
  · exact hmap ▸ List.mem_append_right _ (List.mem_singleton_self a)

omit [DecidableEq ι] in
/-- **A store** is taken back by the undo entry before it. -/
theorem LocalOk.store (h : LocalOk cfg s t) (hpc : t.pc = .store a v) :
    LocalOk cfg { s with mem := Function.update s.mem a v }
      ⟨t.state, .idle, t.txn ++ [.write a v]⟩ := by
  obtain ⟨state, pc, txn⟩ := t
  obtain rfl : pc = _ := hpc
  obtain ⟨hlock, hmem⟩ : _ ∧ a ∈ state.writeset.map Prod.fst := h.pc
  refine ⟨h.validated, reads_write.2 h.reads, h.entries,
    fun _ _ m hm => reads_write.2 (h.covered rfl (by simp) m hm), fun _ b hb => ?_,
    fun _ b hb => .inl (writes_write.2 ?_), fun _ b m hb => ?_, fun b hb => ?_, h.locked, h.nodup,
    h.fresh, fun hno => Bool.noConfusion hno, trivial⟩
  · rcases writes_write.1 hb with hb | rfl
    · exact h.writes rfl b hb
    · exact hmem
  · refine (h.written rfl b hb).imp_right fun ⟨w, heq⟩ => ?_
    injection heq
  · rw [replay_write]
    by_cases hab : b = a
    · simp [hab]
    · simp only [Function.update_of_ne hab]
      exact h.replay rfl b m ((writes_write.1 hb).resolve_right (Ne.symm hab))
  · refine Eq.trans (rollback_congr fun hb' => Function.update_of_ne ?_ ..) (h.undo b hb)
    rintro rfl
    exact hb' hmem

/-! ### The end of a transaction -/

/-- What is known of a thread with a commit timestamp, undo entries and locks to go. -/
structure EndOk (cfg : Config) (s : State ι) (t : Local) (pending : List (ℕ × ℕ)) (rest : List ℕ) :
    Prop where
  validated : t.state.readsetValidatedTs ≤ s.globalTs
  reads : Reads (s.committedAt t.state.readsetValidatedTs) t.txn
  entries : ∀ r ∈ t.state.readset, r.ts ≤ s.globalTs
  undo : ∀ a, cfg.addrToLock a ∈ rest → rollback pending s.mem a = s.committedAt s.globalTs a
  locked : ∀ a ∈ pending.map Prod.fst, cfg.addrToLock a ∈ rest
  nodup : rest.Nodup
  commitTs : t.state.commitTs ≤ s.globalTs
  stamps : ∀ l ∈ rest, s.ts l < t.state.commitTs ∧ s.lastCommit l ≤ t.state.commitTs

omit [DecidableEq ι] in
/-- What is known at the end of a transaction. -/
theorem LocalOk.endOk (h : LocalOk cfg s t) (hact : t.pc.active = false) :
    EndOk cfg s t t.pending t.unstamped :=
  ⟨h.validated, h.reads, h.entries, fun a ha => h.undo a (Local.held_of_unstamped ha), h.locked,
    h.nodup.sublist Local.unstamped_sublist, (h.stamping hact).1, (h.stamping hact).2⟩

omit [DecidableEq ι] in
/-- And back. -/
theorem EndOk.localOk {pending : List (ℕ × ℕ)} {rest : List ℕ} (h : EndOk cfg s t pending rest)
    (hact : t.pc.active = false) (hheld : t.held = rest) (hunstamped : t.unstamped = rest)
    (hpending : t.pending = pending) (hpc : PcOk cfg s t) : LocalOk cfg s t := by
  have hno {P : Prop} (hyes : t.pc.active = true) : P := Bool.noConfusion (hyes.symm.trans hact)
  subst hpending
  refine ⟨h.validated, h.reads, h.entries, hno, hno, hno, hno, ?_, ?_, ?_, hno, fun _ => ?_, hpc⟩
  · exact hheld ▸ h.undo
  · exact hunstamped ▸ h.locked
  · exact hheld ▸ h.nodup
  · exact ⟨h.commitTs, hunstamped ▸ h.stamps⟩

omit [DecidableEq ι] in
/-- The undo entries are gone. -/
theorem EndOk.unlockFrom {rest : List ℕ} (h : EndOk cfg s t [] rest)
    (hws : t.state.writeset = []) : LocalOk cfg s (t.unlockFrom rest) := by
  obtain rfl | hrest := eq_or_ne rest []
  · exact EndOk.localOk ⟨h.validated, h.reads, h.entries, h.undo, h.locked, h.nodup, h.commitTs,
      h.stamps⟩ rfl rfl rfl hws ⟨hws, rfl⟩
  · rw [Local.unlockFrom, if_neg hrest]
    exact EndOk.localOk ⟨h.validated, h.reads, h.entries, h.undo, h.locked, h.nodup, h.commitTs,
      h.stamps⟩ rfl rfl rfl hws hws

omit [DecidableEq ι] in
/-- The undo entries `rest` are still to be put back. -/
theorem EndOk.undoFrom {rest : List (ℕ × ℕ)} (h : EndOk cfg s t rest.reverse t.state.locksHeld) :
    LocalOk cfg s (t.undoFrom rest) := by
  obtain rfl | hrest := eq_or_ne rest []
  · rw [Local.undoFrom, if_pos rfl]
    exact EndOk.unlockFrom ⟨h.validated, h.reads, h.entries, h.undo, h.locked, h.nodup, h.commitTs,
      h.stamps⟩ rfl
  · rw [Local.undoFrom, if_neg hrest]
    exact EndOk.localOk ⟨h.validated, h.reads, h.entries, h.undo, h.locked, h.nodup, h.commitTs,
      h.stamps⟩ rfl rfl rfl rfl trivial

omit [DecidableEq ι] in
/-- **An undo entry is put back.** -/
theorem LocalOk.undoEntry (h : LocalOk cfg s t) {rest : List (ℕ × ℕ)}
    (hpc : t.pc = .undo ((a, v) :: rest)) :
    LocalOk cfg { s with mem := Function.update s.mem a v } (t.undoFrom rest) := by
  obtain ⟨state, pc, txn⟩ := t
  obtain rfl : pc = _ := hpc
  have hend : EndOk cfg s _ ((a, v) :: rest).reverse state.locksHeld := h.endOk rfl
  rw [List.reverse_cons] at hend
  refine EndOk.undoFrom ⟨h.validated, h.reads, h.entries, fun b hb => ?_, fun b hb => ?_,
    h.nodup, hend.commitTs, hend.stamps⟩
  · exact (congrFun rollback_snoc b).symm.trans (hend.undo b hb)
  · refine hend.locked b ?_
    rw [List.map_append]
    exact List.mem_append_left _ hb

omit [DecidableEq ι] in
/-- A lock gets the timestamp of the transaction. -/
theorem LocalOk.stampTs (h : LocalOk cfg s t) {rest : List ℕ} {writing : ℕ → Bool}
    (hpc : t.pc = .stampTs (l :: rest)) :
    LocalOk cfg
      { s with ts := Function.update s.ts l t.state.commitTs, writing := writing }
      (t.goto (.unlock (l :: rest))) := by
  obtain ⟨state, pc, txn⟩ := t
  obtain rfl : pc = _ := hpc
  have hend := h.endOk rfl
  have hws : state.writeset = [] := h.pc
  have hno {P : Prop} (hyes : false = true) : P := Bool.noConfusion hyes
  refine ⟨h.validated, h.reads, h.entries, hno, hno, hno, hno, h.undo, fun b hb => ?_, h.nodup,
    hno, fun _ => ⟨hend.commitTs, fun l' hl' => ?_⟩, hws⟩
  · have hb' : b ∈ state.writeset.map Prod.fst := hb
    rw [hws] at hb'
    exact absurd hb' List.not_mem_nil
  · have hne : l' ≠ l := by
      rintro rfl
      exact (List.nodup_cons.1 hend.nodup).1 hl'
    have hstamp := hend.stamps l' (List.mem_cons_of_mem _ hl')
    refine ⟨?_, hstamp.2⟩
    simp only [Function.update_of_ne hne]
    exact hstamp.1

omit [DecidableEq ι] in
/-- A lock is given back. -/
theorem LocalOk.unlock (h : LocalOk cfg s t) {rest : List ℕ} (hpc : t.pc = .unlock (l :: rest)) :
    LocalOk cfg s (t.unlockFrom rest) := by
  obtain ⟨state, pc, txn⟩ := t
  obtain rfl : pc = _ := hpc
  have hws : state.writeset = [] := h.pc
  have hend : EndOk cfg s _ state.writeset rest := h.endOk rfl
  rw [hws] at hend
  exact hend.unlockFrom hws

omit [DecidableEq ι] in
/-- **The next transaction starts** without reads and writes. -/
theorem LocalOk.startTxn (h : LocalOk cfg s t) (hpc : t.pc = .loadStart false) :
    LocalOk cfg s ⟨{ t.state with readsetValidatedTs := s.globalTs }, .idle, []⟩ := by
  obtain ⟨state, pc, txn⟩ := t
  obtain rfl : pc = _ := hpc
  obtain ⟨hws, hlocks⟩ : state.writeset = [] ∧ state.locksHeld = [] := h.pc
  obtain ⟨inTxn, thrId, locksHeld, readset, writeset, aborted, commitTs, validatedTs⟩ := state
  obtain rfl : writeset = [] := hws
  obtain rfl : locksHeld = [] := hlocks
  exact ⟨le_rfl, reads_nil, h.entries, fun _ _ _ _ => reads_nil,
    fun _ a ha => absurd ha not_writes_nil, fun _ a ha => absurd ha List.not_mem_nil,
    fun _ a m ha => absurd ha not_writes_nil, h.undo, h.locked, h.nodup,
    fun _ l hl => absurd hl List.not_mem_nil, fun hno => Bool.noConfusion hno, trivial⟩

omit [DecidableEq ι] in
/-- The first transaction of a thread is opened; it has not read yet. -/
theorem LocalOk.openTxn (h : LocalOk cfg s t) (hpc : t.pc = .loadStart true)
    (hreads : ∀ x ∈ t.txn, x.isRead = false) :
    LocalOk cfg s ⟨{ t.state with readsetValidatedTs := s.globalTs }, .idle, t.txn⟩ :=
  h.setValidated (by rw [hpc]; rfl) le_rfl (reads_of_no_read hreads)

end Own

end TinyStm
end Locktable
end Sivfs
