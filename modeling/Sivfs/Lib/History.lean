/-
# Transactions as histories of accesses

A transaction is the list of its accesses to memory, each with the value it read or wrote.
`Reads m txn` says that from memory `m` every read of `txn` gets the value it is listed with,
and `replay m txn` is the memory that the writes of `txn` leave.  A list of transactions is
`Serial` from `m` if each of them reads what the ones before it left.

What a transaction reads and leaves at an address depends on the memory at that address
only (`reads_congr`, `replay_congr`), which is what lets transactions with disjoint
addresses be moved past each other.
-/

import Mathlib.Logic.Function.Basic
import Mathlib.Tactic.Common

namespace History

variable {α β : Type*}

/-- An access to memory. -/
inductive Access (α β : Type*) where
  /-- The value `v` was read at `a`. -/
  | read (a : α) (v : β)
  /-- The value `v` was written at `a`. -/
  | write (a : α) (v : β)
  deriving DecidableEq

/-- The address of an access. -/
def Access.addr : Access α β → α
  | .read a _ => a
  | .write a _ => a

/-- The access is a read. -/
def Access.isRead : Access α β → Bool
  | .read _ _ => true
  | .write _ _ => false

/-- The transaction writes at `a`. -/
def Writes (txn : List (Access α β)) (a : α) : Prop := ∃ v, Access.write a v ∈ txn

section Writes

variable {txn : List (Access α β)} {a : α}

/-- The last access of a history. -/
theorem writes_snoc {x : Access α β} :
    Writes (txn ++ [x]) a ↔ Writes txn a ∨ ∃ v, x = .write a v := by
  simp only [Writes, List.mem_append, List.mem_singleton, exists_or, eq_comm]

@[simp] theorem writes_read {b : α} : Writes (txn ++ [.read b v]) a ↔ Writes txn a := by
  simp [writes_snoc]

@[simp] theorem writes_write {b : α} :
    Writes (txn ++ [.write b v]) a ↔ Writes txn a ∨ b = a := by
  simp [writes_snoc]

@[simp] theorem not_writes_nil : ¬Writes ([] : List (Access α β)) a := by
  simp [Writes]

end Writes

variable [DecidableEq α]

/-- The memory after an access. -/
def Access.apply (m : α → β) : Access α β → α → β
  | .read _ _ => m
  | .write a v => Function.update m a v

/-- The memory after a transaction. -/
def replay (m : α → β) (txn : List (Access α β)) : α → β := txn.foldl Access.apply m

/-- Every read gets the value it is listed with. -/
def Reads (m : α → β) : List (Access α β) → Prop
  | [] => True
  | .read a v :: txn => m a = v ∧ Reads m txn
  | .write a v :: txn => Reads (Function.update m a v) txn

/-- The memory after transactions that run one after the other. -/
def replayAll (m : α → β) (txns : List (List (Access α β))) : α → β := txns.foldl replay m

/-- **A serial run**: every transaction reads what the ones before it left. -/
def Serial (m : α → β) : List (List (Access α β)) → Prop
  | [] => True
  | txn :: txns => Reads m txn ∧ Serial (replay m txn) txns

variable {m m' : α → β} {txn : List (Access α β)} {a : α} {v : β}

@[simp] theorem replay_nil : replay m [] = m := rfl

/-- Two parts of a transaction, one after the other. -/
theorem replay_append (txn txn' : List (Access α β)) :
    replay m (txn ++ txn') = replay (replay m txn) txn' := List.foldl_append

@[simp] theorem replay_read : replay m (txn ++ [.read a v]) = replay m txn := replay_append _ _

@[simp] theorem replay_write :
    replay m (txn ++ [.write a v]) = Function.update (replay m txn) a v := replay_append _ _

@[simp] theorem reads_nil : Reads m [] := trivial

/-- The second part reads what the first has left. -/
theorem reads_append {txn' : List (Access α β)} :
    Reads m (txn ++ txn') ↔ Reads m txn ∧ Reads (replay m txn) txn' := by
  induction txn generalizing m with
  | nil => simp
  | cons x txn ih =>
    cases x with
    | read b w =>
      simp only [List.cons_append, Reads, ih, and_assoc]
      rfl
    | write b w => exact ih

/-- A read goes on the history if it gets what the history left. -/
@[simp] theorem reads_read :
    Reads m (txn ++ [.read a v]) ↔ Reads m txn ∧ replay m txn a = v := by
  rw [reads_append]
  simp [Reads]

@[simp] theorem reads_write : Reads m (txn ++ [.write a v]) ↔ Reads m txn := by
  rw [reads_append]
  simp [Reads]

/-- Without a read any memory will do. -/
theorem reads_of_no_read (h : ∀ x ∈ txn, x.isRead = false) : Reads m txn := by
  induction txn generalizing m with
  | nil => exact reads_nil
  | cons x txn ih =>
    have hrest (y : Access α β) (hy : y ∈ txn) : y.isRead = false := h y (List.mem_cons_of_mem _ hy)
    cases x with
    | read a v => exact absurd (h _ (List.mem_cons_self ..)) Bool.true_eq_false.mp
    | write a v => exact ih hrest

/-- The memory at an address that is not written stays. -/
theorem replay_of_not_writes (h : ¬Writes txn a) : replay m txn a = m a := by
  induction txn generalizing m with
  | nil => rfl
  | cons x txn ih =>
    have hrest : ¬Writes txn a := fun ⟨v, hv⟩ => h ⟨v, List.mem_cons_of_mem _ hv⟩
    refine (ih hrest).trans ?_
    cases x with
    | read b w => rfl
    | write b w =>
      have hne : a ≠ b := by
        rintro rfl
        exact h ⟨w, List.mem_cons_self ..⟩
      exact Function.update_of_ne hne ..

/-- What is written does not depend on the memory before. -/
theorem replay_of_writes (h : Writes txn a) : replay m txn a = replay m' txn a := by
  induction txn generalizing m m' with
  | nil => exact absurd h not_writes_nil
  | cons x txn ih =>
    by_cases hrest : Writes txn a
    · exact ih hrest
    · obtain ⟨v, hv⟩ := h
      obtain rfl : x = .write a v := by
        rcases List.mem_cons.1 hv with hx | hx
        · exact hx.symm
        · exact absurd ⟨v, hx⟩ hrest
      have hx (m : α → β) : replay m (.write a v :: txn) a = v :=
        (replay_of_not_writes hrest).trans (Function.update_self ..)
      rw [hx, hx]

/-- What a replay leaves at an address depends on what was there alone. -/
theorem replay_congr (h : m a = m' a) : replay m txn a = replay m' txn a := by
  by_cases hw : Writes txn a
  · exact replay_of_writes hw
  · rw [replay_of_not_writes hw, replay_of_not_writes hw, h]

/-- **Only the addresses of a transaction matter to what it reads.** -/
theorem reads_congr (h : ∀ x ∈ txn, m x.addr = m' x.addr) : Reads m txn ↔ Reads m' txn := by
  induction txn generalizing m m' with
  | nil => rfl
  | cons x txn ih =>
    have htail (y) (hy : y ∈ txn) : m y.addr = m' y.addr := h y (List.mem_cons_of_mem _ hy)
    cases x with
    | read b w =>
      have hb : m b = m' b := h _ (List.mem_cons_self ..)
      simp only [Reads, hb, ih htail]
    | write b w =>
      refine ih fun y hy => ?_
      rcases eq_or_ne y.addr b with hyb | hyb
      · simp [hyb]
      · rw [Function.update_of_ne hyb, Function.update_of_ne hyb, htail y hy]

/-! ### Reads of some addresses -/

/-- Every read of an address in `P` gets the value it is listed with. -/
def ReadsOn (P : α → Prop) (m : α → β) : List (Access α β) → Prop
  | [] => True
  | .read a v :: txn => (P a → m a = v) ∧ ReadsOn P m txn
  | .write a v :: txn => ReadsOn P (Function.update m a v) txn

section ReadsOn

variable {P Q : α → Prop}

@[simp] theorem readsOn_nil : ReadsOn P m [] := trivial

/-- The same for reads of some addresses. -/
theorem readsOn_append {txn' : List (Access α β)} :
    ReadsOn P m (txn ++ txn') ↔ ReadsOn P m txn ∧ ReadsOn P (replay m txn) txn' := by
  induction txn generalizing m with
  | nil => simp
  | cons x txn ih =>
    cases x with
    | read b w =>
      simp only [List.cons_append, ReadsOn, ih, and_assoc]
      rfl
    | write b w => exact ih

@[simp] theorem readsOn_read :
    ReadsOn P m (txn ++ [.read a v]) ↔ ReadsOn P m txn ∧ (P a → replay m txn a = v) := by
  rw [readsOn_append]
  simp [ReadsOn]

@[simp] theorem readsOn_write : ReadsOn P m (txn ++ [.write a v]) ↔ ReadsOn P m txn := by
  rw [readsOn_append]
  simp [ReadsOn]

/-- **Another memory, and other addresses**: what is in `Q` and is read has to be in `P`, with
the same memory. -/
theorem ReadsOn.imp (h : ReadsOn P m txn)
    (hQ : ∀ a v, .read a v ∈ txn → Q a → P a ∧ m' a = m a) : ReadsOn Q m' txn := by
  induction txn generalizing m m' with
  | nil => exact readsOn_nil
  | cons x txn ih =>
    have htail (b w) (hb : Access.read b w ∈ txn) := hQ b w (List.mem_cons_of_mem _ hb)
    cases x with
    | read b w =>
      refine ⟨fun hb => ?_, ih h.2 htail⟩
      obtain ⟨hP, heq⟩ := hQ b w List.mem_cons_self hb
      rw [heq, h.1 hP]
    | write b w =>
      refine ih h fun c u hc hQc => ?_
      obtain ⟨hP, heq⟩ := htail c u hc hQc
      refine ⟨hP, ?_⟩
      rw [Function.update_apply, Function.update_apply, heq]

/-- If every address that is read is in `P`, nothing else matters. -/
theorem ReadsOn.reads (h : ReadsOn P m txn) (hP : ∀ a v, .read a v ∈ txn → P a) :
    Reads m txn := by
  induction txn generalizing m with
  | nil => exact reads_nil
  | cons x txn ih =>
    have htail (b w) (hb : Access.read b w ∈ txn) := hP b w (List.mem_cons_of_mem _ hb)
    cases x with
    | read b w => exact ⟨h.1 (hP b w List.mem_cons_self), ih h.2 htail⟩
    | write b w => exact ih h htail

end ReadsOn

/-! ### Transactions one after the other -/

@[simp] theorem replayAll_snoc (txns : List (List (Access α β))) :
    replayAll m (txns ++ [txn]) = replay (replayAll m txns) txn := by
  simp [replayAll]

/-- **A transaction goes to the end of a serial run** if it reads what the run left. -/
@[simp] theorem serial_snoc {txns : List (List (Access α β))} :
    Serial m (txns ++ [txn]) ↔ Serial m txns ∧ Reads (replayAll m txns) txn := by
  induction txns generalizing m with
  | nil => simp [Serial, replayAll]
  | cons t txns ih =>
    simp only [List.cons_append, Serial, ih, and_assoc]
    rfl

end History
