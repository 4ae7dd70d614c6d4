/-
# Snapshot isolation

A store in which transactions end one after the other, in one step each.  A transaction sees
the transactions that had ended when its snapshot was taken.  It may commit if none of those
that have ended since, and have committed, conflicts with it; it may abort if one of them,
committed or not, conflicts with it, or if it has no snapshot.

| label | what happens |
| --- | --- |
| `take i` | thread `i` takes a snapshot |
| `drop i` | thread `i` gives its snapshot up |
| `finish i writes committed` | the transaction of thread `i` ends |

`Isolated` is what holds of the transactions that have ended, the first committer wins, and
`Isolated.contents_eq` what it is good for: no update is lost.
-/

import Sivfs.Lib.Machine
import Mathlib.Logic.Function.Basic

namespace Isolation

/-- A transaction that has ended. -/
structure Txn (W : Type*) where
  /-- How many transactions had ended when its snapshot was taken, if it had one. -/
  snapshot : Option ℕ
  writes : W
  committed : Bool

/-- The store. -/
structure Store (ι W : Type*) where
  ended : List (Txn W)
  snapshot : ι → Option ℕ

/-- A step. -/
inductive Act (ι W : Type*) where
  | take (i : ι)
  | drop (i : ι)
  | finish (i : ι) (writes : W) (committed : Bool)

section Step

variable {ι W : Type*} (conflict : W → W → Bool)

/-- Nothing that has committed since the snapshot conflicts. -/
def Store.mayCommit (s : Store ι W) (i : ι) (writes : W) : Bool :=
  (s.snapshot i).any fun n =>
    (s.ended.drop n).all fun t => !(t.committed && conflict writes t.writes)

/-- Something that has ended since the snapshot conflicts. -/
def Store.mayAbort (s : Store ι W) (i : ι) (writes : W) : Bool :=
  (s.snapshot i).all fun n => (s.ended.drop n).any fun t => conflict writes t.writes

variable [DecidableEq ι]

/-- One step. -/
def step (s : Store ι W) : Act ι W → Option (Store ι W)
  | .take i => some { s with snapshot := Function.update s.snapshot i (some s.ended.length) }
  | .drop i => some { s with snapshot := Function.update s.snapshot i none }
  | .finish i writes committed =>
    if (if committed then s.mayCommit conflict i writes else s.mayAbort conflict i writes) then
      some { s with ended := s.ended ++ [⟨s.snapshot i, writes, committed⟩] }
    else none

/-- The store of the threads `ι`. -/
def isolation (ι W : Type*) [DecidableEq ι] (conflict : W → W → Bool) :
    Machine (Store ι W) (Act ι W) where
  init s := s.ended = [] ∧ ∀ i, s.snapshot i = none
  step := step conflict

end Step

/-- What has ended stays. -/
theorem step_ended {ι W : Type*} [DecidableEq ι] {conflict : W → W → Bool} {s s' : Store ι W}
    {a : Act ι W} (h : step conflict s a = some s') : s.ended <+: s'.ended := by
  cases a with
  | take i | drop i =>
    obtain rfl := Option.some.inj h
    exact List.prefix_rfl
  | finish i writes committed =>
    rw [step, Option.ite_none_right_eq_some] at h
    obtain rfl := Option.some.inj h.2
    exact List.prefix_append ..

section Runs

variable {ι W : Type*} {conflict : W → W → Bool} {ended : List (Txn W)} {t : Txn W} {n j : ℕ}

section Guards

variable {s : Store ι W} {i : ι} {w : W}

theorem mem_drop : t ∈ ended.drop n ↔ ∃ k, n ≤ k ∧ ended[k]? = some t := by
  simp only [List.mem_iff_getElem?, List.getElem?_drop]
  constructor
  · rintro ⟨k, hk⟩
    exact ⟨n + k, Nat.le_add_right n k, hk⟩
  · rintro ⟨k, hnk, hk⟩
    exact ⟨k - n, by rwa [Nat.add_sub_cancel' hnk]⟩

theorem mayCommit_iff : s.mayCommit conflict i w = true ↔ ∃ n, s.snapshot i = some n ∧
    ∀ k t, n ≤ k → s.ended[k]? = some t → t.committed = true → conflict w t.writes = false := by
  simp only [Store.mayCommit, Option.any_eq_true, List.all_eq_true, mem_drop, Bool.not_eq_true',
    Bool.and_eq_false_imp]
  constructor
  · rintro ⟨n, hn, hall⟩
    exact ⟨n, hn, fun k t hnk hk hc => hall t ⟨k, hnk, hk⟩ hc⟩
  · rintro ⟨n, hn, hall⟩
    refine ⟨n, hn, ?_⟩
    rintro t ⟨k, hnk, hk⟩ hc
    exact hall k t hnk hk hc

theorem mayAbort_iff : s.mayAbort conflict i w = true ↔ ∀ n, s.snapshot i = some n →
    ∃ k t, n ≤ k ∧ s.ended[k]? = some t ∧ conflict w t.writes = true := by
  simp only [Store.mayAbort, Option.all_eq_true, List.any_eq_true, mem_drop]
  constructor
  · intro h n hn
    obtain ⟨t, ⟨k, hnk, hk⟩, hc⟩ := h n hn
    exact ⟨k, t, hnk, hk, hc⟩
  · intro h n hn
    obtain ⟨k, t, hnk, hk, hc⟩ := h n hn
    exact ⟨t, ⟨k, hnk, hk⟩, hc⟩

end Guards

/-- **The first committer wins.**  A transaction that committed had a snapshot, and what has
committed between its snapshot and itself does not conflict with it. -/
def Isolated (conflict : W → W → Bool) (ended : List (Txn W)) : Prop :=
  ∀ (j : ℕ) (t : Txn W), ended[j]? = some t → t.committed = true → ∃ n ≤ j, t.snapshot = some n ∧
    ∀ (k : ℕ) (t' : Txn W), n ≤ k → k < j → ended[k]? = some t' → t'.committed = true →
      conflict t.writes t'.writes = false

/-- One more transaction. -/
theorem Isolated.snoc (h : Isolated conflict ended)
    (ht : t.committed = true → ∃ n ≤ ended.length, t.snapshot = some n ∧
      ∀ k t', n ≤ k → ended[k]? = some t' → t'.committed = true →
        conflict t.writes t'.writes = false) :
    Isolated conflict (ended ++ [t]) := by
  intro j u hj hu
  rcases Nat.lt_trichotomy j ended.length with hlt | heq | hgt
  · rw [List.getElem?_append_left hlt] at hj
    obtain ⟨n, hn, hsnap, hno⟩ := h j u hj hu
    refine ⟨n, hn, hsnap, fun k t' hnk hkj hk => hno k t' hnk hkj ?_⟩
    rwa [List.getElem?_append_left (Nat.lt_trans hkj hlt)] at hk
  · rw [heq, List.getElem?_concat_length] at hj
    obtain rfl := Option.some.inj hj
    obtain ⟨n, hn, hsnap, hno⟩ := ht hu
    refine ⟨n, heq ▸ hn, hsnap, fun k t' hnk hkj hk => hno k t' hnk ?_⟩
    rwa [List.getElem?_append_left (heq ▸ hkj)] at hk
  · rw [List.getElem?_eq_none
      (by simp only [List.length_append, List.length_singleton]; omega)] at hj
    cases hj

/-- What holds in every run of the store. -/
structure Sound (conflict : W → W → Bool) (s : Store ι W) : Prop where
  isolated : Isolated conflict s.ended
  snapshot_le : ∀ i n, s.snapshot i = some n → n ≤ s.ended.length

/-- **The first committer wins in every run.** -/
theorem Sound.of_reachable [DecidableEq ι] {s : Store ι W}
    (hs : (isolation ι W conflict).Reachable s) : Sound conflict s := by
  have hinit : ∀ s, (isolation ι W conflict).init s → Sound conflict s := by
    rintro s ⟨hended, hsnapshot⟩
    refine ⟨fun j t hj => ?_, fun i n hi => ?_⟩
    · rw [hended] at hj
      cases hj
    · rw [hsnapshot i] at hi
      cases hi
  refine hs.invariant hinit fun s a s' _ h hstep => ?_
  cases a with
  | take i =>
    obtain rfl := Option.some.inj hstep
    refine ⟨h.isolated, fun k n hk => ?_⟩
    dsimp only at hk ⊢
    rw [Function.update_apply] at hk
    split_ifs at hk
    · exact Nat.le_of_eq (Option.some.inj hk).symm
    · exact h.snapshot_le k n hk
  | drop i =>
    obtain rfl := Option.some.inj hstep
    refine ⟨h.isolated, fun k n hk => ?_⟩
    dsimp only at hk ⊢
    rw [Function.update_apply] at hk
    split_ifs at hk
    exact h.snapshot_le k n hk
  | finish i writes committed =>
    simp only [isolation, step] at hstep
    split_ifs at hstep with hcommitted hmay
    · obtain rfl := Option.some.inj hstep
      refine ⟨h.isolated.snoc fun _ => ?_, fun k n hk => ?_⟩
      · obtain ⟨n, hn, hall⟩ := mayCommit_iff.1 hmay
        exact ⟨n, h.snapshot_le i n hn, hn, hall⟩
      · exact Nat.le_trans (h.snapshot_le k n hk) (by simp)
    · obtain rfl := Option.some.inj hstep
      refine ⟨h.isolated.snoc fun hc => absurd hc hcommitted, fun k n hk => ?_⟩
      exact Nat.le_trans (h.snapshot_le k n hk) (by simp)

/-! ### Contents -/

variable {α β : Type*} {apply : (α → β) → W → α → β} {m : α → β} {a : α}

/-- What the first `n` transactions leave in the store. -/
def contents (apply : (α → β) → W → α → β) (m : α → β) (ended : List (Txn W)) (n : ℕ) : α → β :=
  ((ended.take n).filter fun t => t.committed).foldl (fun m t => apply m t.writes) m

/-- Later transactions do not matter. -/
theorem contents_prefix {ended' : List (Txn W)} (h : ended <+: ended') (hn : n ≤ ended.length) :
    contents apply m ended' n = contents apply m ended n := by
  obtain ⟨rest, rfl⟩ := h
  rw [contents, contents, List.take_append_of_le_length hn]

theorem contents_succ (hn : ended[n]? = some t) : contents apply m ended (n + 1) =
    if t.committed then apply (contents apply m ended n) t.writes
    else contents apply m ended n := by
  rw [contents, List.take_add_one, hn, Option.toList_some, List.filter_append, List.foldl_append]
  cases hc : t.committed <;> simp [hc, contents]

/-- **No update is lost.**  Where a transaction that committed has written, nothing has changed
from its snapshot to its end. -/
theorem Isolated.contents_eq (h : Isolated conflict ended) {touches : W → α → Prop}
    (hframe : ∀ m w a, ¬touches w a → apply m w a = m a)
    (hconflict : ∀ w w' a, conflict w w' = false → touches w a → ¬touches w' a)
    (hj : ended[j]? = some t) (hcommitted : t.committed = true) (hsnap : t.snapshot = some n)
    (ha : touches t.writes a) : contents apply m ended n a = contents apply m ended j a := by
  obtain ⟨n', hn', hsnap', hno⟩ := h j t hj hcommitted
  obtain rfl := Option.some.inj (hsnap'.symm.trans hsnap)
  have hlt : j < ended.length := (List.getElem?_eq_some_iff.1 hj).1
  -- by induction on where we are between the snapshot and the end
  have hbetween : ∀ k, n' + k ≤ j →
      contents apply m ended n' a = contents apply m ended (n' + k) a := by
    intro k
    induction k with
    | zero => exact fun _ => rfl
    | succ k ih =>
      intro hk
      have hk' : n' + k < ended.length := by omega
      rw [ih (by omega), ← Nat.add_assoc, contents_succ (List.getElem?_eq_getElem hk')]
      split_ifs with hc
      · rw [hframe]
        exact hconflict _ _ a
          (hno (n' + k) _ (by omega) (by omega) (List.getElem?_eq_getElem hk') hc) ha
      · rfl
  have heq := hbetween (j - n') (by omega)
  rwa [Nat.add_sub_cancel' hn'] at heq

end Runs

end Isolation
