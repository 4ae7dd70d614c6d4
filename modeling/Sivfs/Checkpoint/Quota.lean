/-
# The quota of checkpoint pages

`sivfs_new_checkpoint_page` and `sivfs_put_checkpoint_page` (`kern/sivfs_checkpoints.c`) keep
the number of pages in `sivfs_ncheckpoint_pages`.  There is no lock: a thread adds its page
first, looks at what it gets, and takes the page off again if that is too much or if anything
fails later.

| | in the counter | allocated |
| --- | --- | --- |
| `counted` | yes | no |
| `allocated`, `freeing` | yes | yes |
| `undoing` | yes | no |
| `putting` | no | yes |

So the counter may be above the limit for a while, but not because of pages (`quota_kept`).  A
page that is put leaves the counter before it goes back to the kernel: that many pages may be
allocated beyond the limit.
-/

import Mathlib.Algebra.Order.BigOperators.Group.Finset
import Mathlib.Data.Fintype.Card
import Sivfs.Lib.Machine
import Sivfs.Basic

namespace Sivfs
namespace Checkpoint
namespace Quota

/-- `SIVFS_MAX_CHECKPOINT_PAGES`. -/
def maxCheckpointPages : ℕ := 4000 * 2 ^ 20 / pageSize

/-- Where a thread is. -/
inductive Pc where
  | idle
  /-- In `sivfs_new_checkpoint_page`, within the limit. -/
  | counted
  /-- There is a page, which is being set up. -/
  | allocated
  /-- `error1`: the page is given back. -/
  | freeing
  /-- `error0`: the speculative increment is undone. -/
  | undoing
  /-- In `sivfs_put_checkpoint_page`, after the decrement. -/
  | putting
  deriving DecidableEq

/-- What a thread adds to the counter. -/
def Pc.inFlight : Pc → ℕ
  | .counted | .allocated | .freeing | .undoing => 1
  | .idle | .putting => 0

/-- What a thread may have a page for, or has one. -/
def Pc.reserved : Pc → ℕ
  | .counted | .allocated | .freeing => 1
  | .idle | .undoing | .putting => 0

/-- A thread has a page that it has yet to hand out or to give back. -/
def Pc.hasPage : Pc → ℕ
  | .allocated | .freeing | .putting => 1
  | .idle | .counted | .undoing => 0

/-- The page of a thread has left the counter. -/
def Pc.leaving : Pc → ℕ
  | .putting => 1
  | _ => 0

theorem Pc.reserved_le (pc : Pc) : pc.reserved ≤ pc.inFlight := by
  cases pc <;> decide

theorem Pc.hasPage_le (pc : Pc) : pc.hasPage ≤ pc.reserved + pc.leaving := by
  cases pc <;> decide

/-- The counter, the number of pages that are handed out, and the threads. -/
structure State (ι : Type*) where
  /-- `sivfs_ncheckpoint_pages`. -/
  counter : BitVec 64
  out : ℕ
  pc : ι → Pc

/-- A step of a thread. -/
inductive Act (ι : Type*) where
  /-- `atomic64_inc_return`, and what it returns is compared. -/
  | new (i : ι)
  /-- `alloc_page`. -/
  | alloc (i : ι) (ok : Bool)
  /-- The rest of `sivfs_new_checkpoint_page`. -/
  | setup (i : ι) (ok : Bool)
  /-- `__free_pages`, on the way out with an error or at the end of a put. -/
  | free (i : ι)
  /-- `atomic64_dec`. -/
  | undo (i : ι)
  /-- `sivfs_put_checkpoint_page`.  A page that is in use, or that has no record, it keeps:
  it returns before the counter, and the page is leaked. -/
  | put (i : ι) (unused : Bool)

section Machine

variable {ι : Type*} [DecidableEq ι]

/-- Thread `i` goes on. -/
def State.goto (s : State ι) (i : ι) (pc : Pc) : State ι :=
  { s with pc := Function.update s.pc i pc }

/-- One step. -/
def step (s : State ι) : Act ι → Option (State ι)
  | .new i =>
    if s.pc i = .idle then
      let s := { s with counter := s.counter + 1 }
      -- The comparison is of unsigned numbers.
      some (s.goto i (if maxCheckpointPages < s.counter.toNat then .undoing else .counted))
    else none
  | .alloc i ok =>
    if s.pc i = .counted then some (s.goto i (if ok then .allocated else .undoing)) else none
  | .setup i ok =>
    if s.pc i = .allocated then
      some (if ok then { s with out := s.out + 1 }.goto i .idle else s.goto i .freeing)
    else none
  | .free i =>
    match s.pc i with
    | .freeing => some (s.goto i .undoing)
    | .putting => some (s.goto i .idle)
    | _ => none
  | .undo i =>
    if s.pc i = .undoing then some ({ s with counter := s.counter - 1 }.goto i .idle) else none
  | .put i unused =>
    if s.pc i = .idle ∧ 0 < s.out then
      some (if unused then { s with counter := s.counter - 1, out := s.out - 1 }.goto i .putting
        else s)
    else none

/-- `sivfs_new_checkpoint_page` and `sivfs_put_checkpoint_page`, for the threads `ι`. -/
def machine (ι : Type*) [DecidableEq ι] : Machine (State ι) (Act ι) where
  init s := s = ⟨0, 0, fun _ => .idle⟩
  step := step

end Machine

/-! ### Counting -/

section Counting

variable {ι : Type*} [Fintype ι]

/-- The sum of what the threads count. -/
def State.total (s : State ι) (w : Pc → ℕ) : ℕ := ∑ i, w (s.pc i)

/-- The pages that the kernel has not got back. -/
def State.pages (s : State ι) : ℕ := s.out + s.total Pc.hasPage

variable {s : State ι} (w : Pc → ℕ)

/-- A thread counts no more than the sum. -/
theorem le_total (s : State ι) (i : ι) : w (s.pc i) ≤ s.total w :=
  Finset.single_le_sum_of_canonicallyOrdered (f := fun i => w (s.pc i)) (Finset.mem_univ i)

/-- Sums are compared thread by thread. -/
theorem total_mono (s : State ι) {w w' : Pc → ℕ} (h : ∀ pc, w pc ≤ w' pc) :
    s.total w ≤ s.total w' := Finset.sum_le_sum fun i _ => h (s.pc i)

/-- No more is in flight than there are threads. -/
theorem total_inFlight_le (s : State ι) : s.total Pc.inFlight ≤ Fintype.card ι := by
  have hone : ∀ pc : Pc, pc.inFlight ≤ 1 := by
    intro pc
    cases pc <;> decide
  have hsum : s.total Pc.inFlight ≤ ∑ _i : ι, 1 := Finset.sum_le_sum fun i _ => hone (s.pc i)
  simpa using hsum

variable [DecidableEq ι]

/-- One thread goes on. -/
theorem total_goto (s : State ι) (i : ι) (pc : Pc) :
    (s.goto i pc).total w + w (s.pc i) = s.total w + w pc := by
  have hrest : ∑ j ∈ Finset.univ.erase i, w ((s.goto i pc).pc j) =
      ∑ j ∈ Finset.univ.erase i, w (s.pc j) := by
    refine Finset.sum_congr rfl fun j hj => ?_
    simp only [State.goto, Function.update_of_ne (Finset.ne_of_mem_erase hj)]
  have hself : w ((s.goto i pc).pc i) = w pc := by
    simp only [State.goto, Function.update_self]
  have hnew :=
    Finset.add_sum_erase Finset.univ (fun j => w ((s.goto i pc).pc j)) (Finset.mem_univ i)
  have hold := Finset.add_sum_erase Finset.univ (fun j => w (s.pc j)) (Finset.mem_univ i)
  rw [State.total, State.total, ← hnew, ← hold, hrest, hself]
  omega

/-! ### The invariant -/

/-- **The counter is what is out and what is in flight**, and what is out or may become a page
is within the limit. -/
structure Inv (s : State ι) : Prop where
  counter : s.counter.toNat = s.out + s.total Pc.inFlight
  limit : s.out + s.total Pc.reserved ≤ maxCheckpointPages

/-- A thread goes on, where the numbers agree. -/
theorem Inv.goto (h : Inv s) (i : ι) (pc : Pc) (counter : BitVec 64) (out : ℕ)
    (hcounter : counter.toNat + (s.pc i).inFlight + s.out =
      s.counter.toNat + pc.inFlight + out)
    (hlimit : out + s.total Pc.reserved + pc.reserved ≤ maxCheckpointPages + (s.pc i).reserved) :
    Inv (State.goto ⟨counter, out, s.pc⟩ i pc) := by
  have hflight : (State.goto ⟨counter, out, s.pc⟩ i pc).total Pc.inFlight + (s.pc i).inFlight =
      s.total Pc.inFlight + pc.inFlight := total_goto Pc.inFlight ⟨counter, out, s.pc⟩ i pc
  have hreserved : (State.goto ⟨counter, out, s.pc⟩ i pc).total Pc.reserved + (s.pc i).reserved =
      s.total Pc.reserved + pc.reserved := total_goto Pc.reserved ⟨counter, out, s.pc⟩ i pc
  have hinv := h.counter
  refine ⟨?_, ?_⟩
  · show counter.toNat = out + _
    omega
  · show out + _ ≤ maxCheckpointPages
    omega

/-- A thread goes on without touching the counter. -/
theorem Inv.move (h : Inv s) {i : ι} {pc pc' : Pc} (hpc : s.pc i = pc)
    (hflight : pc'.inFlight = pc.inFlight) (hreserved : pc'.reserved ≤ pc.reserved) :
    Inv (s.goto i pc') := by
  subst hpc
  have hlimit := h.limit
  exact h.goto i pc' s.counter s.out (by omega) (by omega)

omit [DecidableEq ι] in
/-- The counter goes up. -/
theorem Inv.toNat_add (h : Inv s) (hfew : Fintype.card ι < 2 ^ 63) :
    (s.counter + 1).toNat = s.counter.toNat + 1 := by
  have hle := total_inFlight_le s
  have hcounter := h.counter
  have hlimit := h.limit
  have hmax : maxCheckpointPages < 2 ^ 62 := by decide
  have hone : (1 : BitVec 64).toNat = 1 := rfl
  rw [BitVec.toNat_add, hone]
  omega

/-- The counter goes down. -/
theorem toNat_sub {c : BitVec 64} (h : 0 < c.toNat) : (c - 1).toNat = c.toNat - 1 :=
  BitVec.toNat_sub_of_le (by rwa [BitVec.le_def])

/-- **Every step keeps the invariant.** -/
theorem Inv.step {s' : State ι} (h : Inv s) (hfew : Fintype.card ι < 2 ^ 63) {a : Act ι}
    (hstep : step s a = some s') : Inv s' := by
  have hcounter := h.counter
  have hlimit := h.limit
  cases a with
  | new i =>
    simp only [Quota.step] at hstep
    split_ifs at hstep with hpc hfull <;> obtain rfl := Option.some.inj hstep
    · have hadd := h.toNat_add hfew
      refine h.goto i .undoing _ _ ?_ ?_ <;> simp only [hpc, Pc.inFlight, Pc.reserved] <;> omega
    · have hadd := h.toNat_add hfew
      have hle := total_mono s fun pc => pc.reserved_le
      refine h.goto i .counted _ _ ?_ ?_ <;> simp only [hpc, Pc.inFlight, Pc.reserved] <;> omega
  | alloc i ok =>
    simp only [Quota.step] at hstep
    split_ifs at hstep with hpc hok <;> obtain rfl := Option.some.inj hstep
    · exact h.move hpc rfl le_rfl
    · exact h.move hpc rfl zero_le_one
  | setup i ok =>
    simp only [Quota.step] at hstep
    split_ifs at hstep with hpc hok <;> obtain rfl := Option.some.inj hstep
    · refine h.goto i .idle _ _ ?_ ?_ <;> simp only [hpc, Pc.inFlight, Pc.reserved] <;> omega
    · exact h.move hpc rfl le_rfl
  | free i =>
    simp only [Quota.step] at hstep
    split at hstep
    · rename_i hpc
      obtain rfl := Option.some.inj hstep
      exact h.move hpc rfl zero_le_one
    · rename_i hpc
      obtain rfl := Option.some.inj hstep
      exact h.move hpc rfl le_rfl
    · exact absurd hstep (by simp)
  | undo i =>
    simp only [Quota.step] at hstep
    split_ifs at hstep with hpc
    obtain rfl := Option.some.inj hstep
    have hle := le_total Pc.inFlight s i
    simp only [hpc, Pc.inFlight] at hle
    have hsub := toNat_sub (show 0 < s.counter.toNat by omega)
    refine h.goto i .idle _ _ ?_ ?_ <;> simp only [hpc, Pc.inFlight, Pc.reserved] <;> omega
  | put i unused =>
    simp only [Quota.step] at hstep
    split_ifs at hstep with hpc hunused <;> obtain rfl := Option.some.inj hstep
    · obtain ⟨hpc, hout⟩ := hpc
      have hsub := toNat_sub (show 0 < s.counter.toNat by omega)
      refine h.goto i .putting _ _ ?_ ?_ <;> simp only [hpc, Pc.inFlight, Pc.reserved] <;> omega
    · exact h

theorem reachable_inv (hfew : Fintype.card ι < 2 ^ 63) (h : (machine ι).Reachable s) : Inv s := by
  refine h.invariant (I := fun s => Inv s) (fun s hs => ?_) fun _ _ _ _ hi hstep =>
    hi.step hfew hstep
  obtain rfl := hs
  refine ⟨?_, ?_⟩ <;> simp [State.total, Pc.inFlight, Pc.reserved]

/-! ### Main result -/

/-- **What the counter is good for.** -/
structure Kept (s : State ι) : Prop where
  counter : s.counter.toNat = s.out + s.total Pc.inFlight
  /-- Pages that are handed out or may yet be. -/
  limit : s.out + s.total Pc.reserved ≤ maxCheckpointPages
  /-- Pages that the kernel has not got back. -/
  pages : s.pages ≤ maxCheckpointPages + s.total Pc.leaving
  /-- A thread is refused exactly where the pages and the calls in flight are too many. -/
  refused : ∀ i s', step s (.new i) = some s' →
    (s'.pc i = .undoing ↔ maxCheckpointPages ≤ s.out + s.total Pc.inFlight)
  /-- When no call is under way the counter is exact. -/
  quiet : (∀ i, s.pc i = .idle) → s.counter.toNat = s.out ∧ s.pages = s.out

/-- **The quota is kept** in every interleaving, with whatever failures. -/
theorem quota_kept (hfew : Fintype.card ι < 2 ^ 63) (h : (machine ι).Reachable s) : Kept s := by
  have hi := reachable_inv hfew h
  have hlimit := hi.limit
  refine ⟨hi.counter, hlimit, ?_, fun i s' hstep => ?_, fun hidle => ?_⟩
  · have hpages : s.total Pc.hasPage ≤ s.total fun pc => pc.reserved + pc.leaving :=
      total_mono s fun pc => pc.hasPage_le
    have hsplit : (s.total fun pc => pc.reserved + pc.leaving) =
        s.total Pc.reserved + s.total Pc.leaving := Finset.sum_add_distrib
    rw [State.pages]
    omega
  · have hadd := hi.toNat_add hfew
    have hcounter := hi.counter
    simp only [Quota.step] at hstep
    split_ifs at hstep with hpc hfull <;> obtain rfl := Option.some.inj hstep
    · simp only [State.goto, Function.update_self, true_iff]
      omega
    · simp only [State.goto, Function.update_self, reduceCtorEq, false_iff]
      omega
  · have hzero : ∀ w : Pc → ℕ, w .idle = 0 → s.total w = 0 := fun w hw =>
      Finset.sum_eq_zero fun i _ => by rw [hidle i, hw]
    have hcounter := hi.counter
    rw [hzero _ rfl] at hcounter
    rw [State.pages, hzero _ rfl]
    exact ⟨hcounter, rfl⟩

end Counting

/-! ### At the limit -/

/-- Nothing is in flight. -/
def resting (ι : Type*) (n : ℕ) : State ι := ⟨BitVec.ofNat 64 n, n, fun _ => .idle⟩

section Limit

variable {ι : Type*} [DecidableEq ι]

theorem reachable_step {s s' : State ι} (h : (machine ι).Reachable s) {a : Act ι}
    (hstep : step s a = some s') : (machine ι).Reachable s' := .step a h trivial hstep

/-- Within the limit a thread gets a page. -/
theorem reachable_allocated {s : State ι} (h : (machine ι).Reachable s) {i : ι}
    (hpc : s.pc i = .idle) (hroom : (s.counter + 1).toNat ≤ maxCheckpointPages) :
    (machine ι).Reachable (State.goto ⟨s.counter + 1, s.out, s.pc⟩ i .allocated) := by
  have hnew : step s (.new i) = some (State.goto ⟨s.counter + 1, s.out, s.pc⟩ i .counted) := by
    simp only [step, if_pos hpc, if_neg (not_lt.2 hroom)]
  have halloc : step (State.goto ⟨s.counter + 1, s.out, s.pc⟩ i .counted) (.alloc i true) =
      some (State.goto ⟨s.counter + 1, s.out, s.pc⟩ i .allocated) := by
    simp [step, State.goto]
  exact reachable_step (reachable_step h hnew) halloc

/-- One thread hands out pages up to the limit. -/
theorem resting_reachable (i : ι) {n : ℕ} (hn : n ≤ maxCheckpointPages) :
    (machine ι).Reachable (resting ι n) := by
  induction n with
  | zero => exact .init rfl
  | succ n ih =>
    have hadd : BitVec.ofNat 64 n + 1 = BitVec.ofNat 64 (n + 1) := (BitVec.ofNat_add n 1).symm
    have hmax : maxCheckpointPages < 2 ^ 62 := by decide
    have hroom : ((resting ι n).counter + 1).toNat ≤ maxCheckpointPages := by
      rw [resting, hadd, BitVec.toNat_ofNat, Nat.mod_eq_of_lt (by omega)]
      exact hn
    have hsetup : step (State.goto ⟨(resting ι n).counter + 1, n, (resting ι n).pc⟩ i .allocated)
        (.setup i true) = some (resting ι (n + 1)) := by
      rw [resting, resting, ← hadd]
      simp [step, State.goto]
    exact reachable_step (reachable_allocated (ih (by omega)) rfl hroom) hsetup

end Limit

/-- **At the limit** a page that is put is not back with the kernel when the next one is
allocated: for that long there is one page too many. -/
theorem limit_overstepped :
    ∃ s, (machine Bool).Reachable s ∧ s.pages = maxCheckpointPages + 1 := by
  have hfull : (machine Bool).Reachable (resting Bool maxCheckpointPages) :=
    resting_reachable true le_rfl
  have hput : step (resting Bool maxCheckpointPages) (.put true true) =
      some (State.goto ⟨BitVec.ofNat 64 maxCheckpointPages - 1, maxCheckpointPages - 1,
        fun _ => .idle⟩ true .putting) := by
    have hguard : (resting Bool maxCheckpointPages).pc true = .idle ∧
        0 < (resting Bool maxCheckpointPages).out := ⟨rfl, by decide⟩
    simp only [step, if_pos hguard]
    rfl
  exact ⟨_, reachable_allocated (reachable_step hfull hput) (i := false) rfl (by decide),
    by decide⟩

/-- A page is handed out and another thread is about to get one. -/
theorem quota_kept_twoThreads : ∃ s : State Bool, Fintype.card Bool < 2 ^ 63 ∧
    (machine Bool).Reachable s ∧ s.out = 1 ∧ s.pc false = .allocated ∧ Kept s := by
  have hone : (machine Bool).Reachable (resting Bool 1) := resting_reachable true (by decide)
  have hreach := reachable_allocated hone (i := false) rfl (by decide)
  exact ⟨_, by decide, hreach, rfl, rfl, quota_kept (by decide) hreach⟩

end Quota
end Checkpoint
end Sivfs
