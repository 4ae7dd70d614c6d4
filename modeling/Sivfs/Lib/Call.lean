/-
# Calls that may fail half way

A call takes a state to a result and the state it leaves.  The result is a value or an
error, and the state is there in both cases: a function that returns an error code does
not take back what it stored before.

`Call.wp` is the weakest precondition of a call for two postconditions, one for its value
and one for its error.  `Call.Returns` is about the value alone, and `Call.Keeps` is the rule
for an invariant that every part of a call keeps, whether it fails or not.
-/

import Mathlib.Tactic.Common

/-- A function that returns a value or fails, with the state it leaves. -/
def Call (σ ε α : Type) : Type := σ → Except ε α × σ

namespace Call

variable {σ ε α β : Type}

instance : Monad (Call σ ε) where
  pure a s := (.ok a, s)
  bind m f s :=
    match m s with
    | (.ok a, s') => f a s'
    | (.error e, s') => (.error e, s')

/-- The state. -/
def get : Call σ ε σ := fun s => (.ok s, s)

/-- An assignment. -/
def modify (f : σ → σ) : Call σ ε Unit := fun s => (.ok (), f s)

/-- An error return. -/
def fail (e : ε) : Call σ ε α := fun s => (.error e, s)

/-- An error return unless a condition holds. -/
def require (c : Prop) [Decidable c] (e : ε) : Call σ ε Unit := if c then pure () else fail e

/-- The state that `m` leaves. -/
def after (m : Call σ ε α) (s : σ) : σ := (m s).2

/-- An error of `m` is returned after `cleanup`. -/
def onError (m : Call σ ε α) (cleanup : σ → σ) : Call σ ε α := fun s =>
  match m s with
  | (.ok a, s') => (.ok a, s')
  | (.error e, s') => (.error e, cleanup s')

/-- What is made of the value or of the error of `m`, and of the state it leaves. -/
def run (m : Call σ ε α) (ok : α → σ → β) (error : ε → σ → β) (s : σ) : β :=
  match m s with
  | (.ok a, s') => ok a s'
  | (.error e, s') => error e s'

/-- What is made of a value. -/
theorem run_of_ok {m : Call σ ε α} {ok : α → σ → β} {error : ε → σ → β} {a : α} {s s' : σ}
    (h : m s = (.ok a, s')) : m.run ok error s = ok a s' := by
  rw [run, h]

/-- What is made of an error. -/
theorem run_of_error {m : Call σ ε α} {ok : α → σ → β} {error : ε → σ → β} {e : ε} {s s' : σ}
    (h : m s = (.error e, s')) : m.run ok error s = error e s' := by
  rw [run, h]

/-- A value, and the state as it was. -/
@[simp] theorem pure_apply (a : α) (s : σ) : (pure a : Call σ ε α) s = (.ok a, s) := rfl

/-- An error ends the sequence in the state that it leaves. -/
theorem bind_apply (m : Call σ ε α) (f : α → Call σ ε β) (s : σ) :
    (m >>= f) s = match m s with
      | (.ok a, s') => f a s'
      | (.error e, s') => (.error e, s') := rfl

/-- A sequence returns a value if and only if both parts do. -/
theorem bind_eq_ok {m : Call σ ε α} {f : α → Call σ ε β} {s s' : σ} {b : β} :
    (m >>= f) s = (.ok b, s') ↔ ∃ a s₁, m s = (.ok a, s₁) ∧ f a s₁ = (.ok b, s') := by
  rw [bind_apply]
  rcases m s with ⟨e | a, s₁⟩
  · simp
  · simp

/-- A condition that is required holds behind it. -/
theorem require_eq_ok {c : Prop} [Decidable c] {e : ε} {u : Unit} {s s' : σ} :
    require c e s = (.ok u, s') ↔ c ∧ s' = s := by
  by_cases hc : c
  · simp [require, hc, eq_comm]
  · simp [require, hc, fail]

/-! ### Weakest preconditions -/

/-- `m` run in `s` returns a value as `Q` says, or fails as `E` says. -/
def wp (m : Call σ ε α) (Q : α → σ → Prop) (E : ε → σ → Prop) (s : σ) : Prop :=
  match m s with
  | (.ok a, s') => Q a s'
  | (.error e, s') => E e s'

section wp

variable {Q : α → σ → Prop} {E : ε → σ → Prop} {s : σ}

/-- The weakest precondition in terms of the two results. -/
theorem wp_iff {m : Call σ ε α} : m.wp Q E s ↔
    (∀ a s', m s = (.ok a, s') → Q a s') ∧ ∀ e s', m s = (.error e, s') → E e s' := by
  rw [wp]
  rcases m s with ⟨e | a, s'⟩
  · simp
  · simp

/-- A call whose value is known. -/
theorem wp_of_ok {m : Call σ ε α} {a : α} {s' : σ} (h : m s = (.ok a, s')) :
    m.wp Q E s ↔ Q a s' := by
  rw [wp, h]

/-- A value is returned in the state as it is. -/
@[simp] theorem wp_pure {a : α} : (pure a : Call σ ε α).wp Q E s ↔ Q a s := Iff.rfl

/-- An error is returned in the state as it is. -/
@[simp] theorem wp_fail {e : ε} : (fail e : Call σ ε α).wp Q E s ↔ E e s := Iff.rfl

/-- The state is read. -/
@[simp] theorem wp_get {Q : σ → σ → Prop} : (get : Call σ ε σ).wp Q E s ↔ Q s s := Iff.rfl

/-- An assignment is read backwards: what is to hold behind it, of the new state. -/
@[simp] theorem wp_modify {f : σ → σ} {Q : Unit → σ → Prop} :
    (modify f : Call σ ε Unit).wp Q E s ↔ Q () (f s) := Iff.rfl

/-- **The rule of sequence**: the second part has to be right in every state the first leaves, and
an error of the first is an error of the whole. -/
@[simp] theorem wp_bind {m : Call σ ε α} {f : α → Call σ ε β} {Q : β → σ → Prop} :
    (m >>= f).wp Q E s ↔ m.wp (fun a => (f a).wp Q E) E s := by
  rw [wp, wp, bind_apply]
  rcases m s with ⟨e | a, s'⟩ <;> rfl

/-- A condition that is required may be used behind it. -/
@[simp] theorem wp_require {c : Prop} [Decidable c] {e : ε} {Q : Unit → σ → Prop} :
    (require c e : Call σ ε Unit).wp Q E s ↔ (c → Q () s) ∧ (¬c → E e s) := by
  by_cases hc : c
  · simp [require, hc]
  · simp [require, hc]

/-- The postconditions may speak of the result itself. -/
theorem wp_result {m : Call σ ε α} (h : m.wp Q E s) :
    m.wp (fun a s' => m s = (.ok a, s') ∧ Q a s')
      (fun e s' => m s = (.error e, s') ∧ E e s') s := by
  rw [wp] at h ⊢
  rcases hm : m s with ⟨e | a, s'⟩
  · rw [hm] at h
    exact ⟨rfl, h⟩
  · rw [hm] at h
    exact ⟨rfl, h⟩

/-- An error path has to be right after its cleanup. -/
theorem wp_onError {m : Call σ ε α} {cleanup : σ → σ} :
    (m.onError cleanup).wp Q E s ↔ m.wp Q (fun e s' => E e (cleanup s')) s := by
  rw [wp, wp, onError]
  rcases m s with ⟨e | a, s'⟩ <;> rfl

/-- What holds whether a call fails or not holds of the state it leaves. -/
theorem wp_after {m : Call σ ε α} {I : σ → Prop} :
    m.wp (fun _ => I) (fun _ => I) s ↔ I (m.after s) := by
  rw [wp, after]
  rcases m s with ⟨e | a, s'⟩ <;> rfl

/-- A call that cannot fail returns a value. -/
theorem exists_of_wp {m : Call σ ε α} (h : m.wp Q (fun _ _ => False) s) :
    ∃ a s', m s = (.ok a, s') ∧ Q a s' := by
  rw [wp] at h
  rcases hm : m s with ⟨e | a, s'⟩
  · rw [hm] at h
    exact h.elim
  · rw [hm] at h
    exact ⟨a, s', rfl, h⟩

/-- What follows from the postconditions holds of what is made of the result. -/
theorem run_of_wp {m : Call σ ε α} (h : m.wp Q E s) {P : β → Prop} {ok : α → σ → β}
    {error : ε → σ → β} (hok : ∀ a s', Q a s' → P (ok a s'))
    (herr : ∀ e s', E e s' → P (error e s')) : P (m.run ok error s) := by
  rw [wp] at h
  rw [run]
  rcases hm : m s with ⟨e | a, s'⟩
  · rw [hm] at h
    exact herr e s' h
  · rw [hm] at h
    exact hok a s' h

/-- **The rule of consequence.** -/
theorem wp_mono {m : Call σ ε α} {Q' : α → σ → Prop} {E' : ε → σ → Prop} (h : m.wp Q E s)
    (hQ : ∀ a s', Q a s' → Q' a s') (hE : ∀ e s', E e s' → E' e s') : m.wp Q' E' s := by
  rw [wp_iff] at h ⊢
  exact ⟨fun a s' hm => hQ a s' (h.1 a s' hm), fun e s' hm => hE e s' (h.2 e s' hm)⟩

/-- Two specifications of one call. -/
theorem wp_and {m : Call σ ε α} {Q' : α → σ → Prop} {E' : ε → σ → Prop} (h : m.wp Q E s)
    (h' : m.wp Q' E' s) : m.wp (fun a s' => Q a s' ∧ Q' a s') (fun e s' => E e s' ∧ E' e s') s := by
  rw [wp_iff] at h h' ⊢
  exact ⟨fun a s' hm => ⟨h.1 a s' hm, h'.1 a s' hm⟩, fun e s' hm => ⟨h.2 e s' hm, h'.2 e s' hm⟩⟩

/-- **The rule for a sequence**, with what is known in between. -/
theorem wp_seq {m : Call σ ε α} {f : α → Call σ ε β} {R : α → σ → Prop} {Q : β → σ → Prop}
    (h : m.wp R E s) (hf : ∀ a s', R a s' → (f a).wp Q E s') : (m >>= f).wp Q E s :=
  wp_bind.2 (wp_mono h hf fun _ _ he => he)

end wp

/-! ### Values of calls -/

/-- What `m` returns, from whatever state, satisfies `P`. -/
def Returns (P : α → Prop) (m : Call σ ε α) : Prop := ∀ s a s', m s = (.ok a, s') → P a

section Returns

variable {P : β → Prop}

/-- A value with `P` is returned. -/
theorem returns_pure {b : β} (h : P b) : Returns P (pure b : Call σ ε β) := by
  intro s a s' hs
  obtain rfl := Except.ok.inj (Prod.mk.inj hs).1
  exact h

/-- An error returns no value. -/
theorem returns_fail {e : ε} : Returns P (fail e : Call σ ε β) := by
  intro s a s' hs
  cases (Prod.mk.inj hs).1

/-- Only if the condition holds, there is a value. -/
theorem returns_require (c : Prop) [Decidable c] (e : ε) :
    Returns (fun _ => c) (require c e : Call σ ε Unit) :=
  fun _ _ _ h => (require_eq_ok.1 h).1

/-- The rule of sequence, for values. -/
theorem returns_bind {R : α → Prop} {m : Call σ ε α} {f : α → Call σ ε β} (hm : Returns R m)
    (hf : ∀ a, R a → Returns P (f a)) : Returns P (m >>= f) := by
  intro s b s' h
  obtain ⟨a, s₁, ha, hb⟩ := bind_eq_ok.1 h
  exact hf a (hm s a s₁ ha) s₁ b s' hb

/-- A part whose value does not matter. -/
theorem returns_seq {m : Call σ ε α} {f : α → Call σ ε β} (hf : ∀ a, Returns P (f a)) :
    Returns P (m >>= f) :=
  returns_bind (fun _ _ _ _ => trivial) fun a (_ : True) => hf a

/-- The rule of choice, for values. -/
theorem returns_ite {c : Prop} [Decidable c] {m m' : Call σ ε β} (hm : Returns P m)
    (hm' : Returns P m') : Returns P (if c then m else m') := by
  split_ifs
  · exact hm
  · exact hm'

/-- What a call returns, where it is known how it fails. -/
theorem Returns.wp {m : Call σ ε β} (hm : Returns P m) {Q : β → σ → Prop} {E : ε → σ → Prop}
    {s : σ} (h : m.wp Q E s) : m.wp (fun b s' => P b ∧ Q b s') E s := by
  rw [wp_iff] at h ⊢
  exact ⟨fun b s' hs => ⟨hm s b s' hs, h.1 b s' hs⟩, h.2⟩

end Returns

/-! ### Invariants of calls -/

/-- `m` keeps `I`, whether it fails or not. -/
def Keeps (I : σ → Prop) (m : Call σ ε α) : Prop := ∀ s, I s → I (m.after s)

section Keeps

variable {I : σ → Prop}

/-- An invariant is kept if it is a precondition for itself, whether the call fails or not. -/
theorem keeps_iff {m : Call σ ε α} :
    Keeps I m ↔ ∀ s, I s → m.wp (fun _ => I) (fun _ => I) s :=
  forall_congr' fun _ => imp_congr_right fun _ => wp_after.symm

/-- To return keeps every invariant. -/
theorem keeps_pure (a : α) : Keeps I (pure a : Call σ ε α) := fun _ h => h

/-- So does to fail. -/
theorem keeps_fail (e : ε) : Keeps I (fail e : Call σ ε α) := fun _ h => h

/-- So does to read. -/
theorem keeps_get : Keeps I (get : Call σ ε σ) := fun _ h => h

/-- An assignment keeps what it preserves. -/
theorem keeps_modify {f : σ → σ} (hf : ∀ s, I s → I (f s)) :
    Keeps I (modify f : Call σ ε Unit) := hf

/-- **A sequence keeps what its parts keep**, so an invariant is shown statement by statement. -/
theorem keeps_bind {m : Call σ ε α} {f : α → Call σ ε β} (hm : Keeps I m)
    (hf : ∀ a, Keeps I (f a)) : Keeps I (m >>= f) := by
  intro s hs
  have h := hm s hs
  rw [after] at h ⊢
  rw [bind_apply]
  rcases hr : m s with ⟨e | a, s'⟩
  · simpa [hr] using h
  · exact hf a s' (by simpa [hr] using h)

/-- A condition that fails changes nothing. -/
theorem keeps_require (c : Prop) [Decidable c] (e : ε) :
    Keeps I (require c e : Call σ ε Unit) := by
  by_cases hc : c
  · simpa [require, hc] using keeps_pure ()
  · simpa [require, hc] using keeps_fail e

/-- A choice keeps what both branches keep. -/
theorem keeps_ite {c : Prop} [Decidable c] {m m' : Call σ ε α} (hm : Keeps I m)
    (hm' : Keeps I m') : Keeps I (if c then m else m') := by
  split_ifs
  · exact hm
  · exact hm'

end Keeps

end Call
