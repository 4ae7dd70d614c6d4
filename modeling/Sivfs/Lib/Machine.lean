/-
# Machines with labelled partial steps

A machine is a set of initial states and a partial step function; a label that
does not apply to a state gives `none`.  Concurrency is in the labels: a run
is any list of them, so "every interleaving" is "every reachable state".

`ReachableWith C` keeps the runs whose steps all meet a condition `C` on the
state before the step and the label.  Invariants are proved one after the
other: `Machine.ReachableWith.invariant` hands each step proof the
reachability of the state it starts from, so that what was proved before can
be used there.
-/

import Mathlib.Tactic.Common

/-- A state machine with initial states and a partial step function. -/
structure Machine (σ α : Type*) where
  /-- The initial states. -/
  init : σ → Prop
  /-- The state after a step with a given label, if the label applies. -/
  step : σ → α → Option σ

namespace Machine

variable {σ α : Type*} (M : Machine σ α)

/-- The states reached by steps that all meet `C`. -/
inductive ReachableWith (C : σ → α → Prop) : σ → Prop where
  | init {s : σ} : M.init s → ReachableWith C s
  | step {s s' : σ} (a : α) : ReachableWith C s → C s a → M.step s a = some s' →
      ReachableWith C s'

/-- The states reached by any steps. -/
def Reachable (s : σ) : Prop := M.ReachableWith (fun _ _ => True) s

/-- The states reached from `s` by steps that all meet `C`. -/
inductive RunsWith (C : σ → α → Prop) (s : σ) : σ → Prop where
  | refl : RunsWith C s s
  | step {s' s'' : σ} (a : α) : RunsWith C s s' → C s' a → M.step s' a = some s'' →
      RunsWith C s s''

/-- The state after a list of labels, if each of them applies and passes a
check. -/
def run (ok : σ → α → Bool) : σ → List α → Option σ
  | s, [] => some s
  | s, a :: as => if ok s a then (M.step s a).bind fun s' => run ok s' as else none

variable {M} {C : σ → α → Prop}

/-- **The invariant rule.**  What holds initially and is kept by every step
from a reachable state holds of every reachable state. -/
theorem ReachableWith.invariant {I : σ → Prop} (h₀ : ∀ s, M.init s → I s)
    (h : ∀ s a s', M.ReachableWith C s → I s → C s a → M.step s a = some s' → I s')
    {s : σ} (hs : M.ReachableWith C s) : I s := by
  induction hs with
  | init hi => exact h₀ _ hi
  | step a hr hc hstep ih => exact h _ a _ hr ih hc hstep

/-- Fewer restrictions on the steps reach more states. -/
theorem ReachableWith.mono {D : σ → α → Prop} (hCD : ∀ s a, C s a → D s a) {s : σ}
    (hs : M.ReachableWith C s) : M.ReachableWith D s :=
  hs.invariant (fun _ hi => .init hi) fun _ a _ _ ih hc hstep => .step a ih (hCD _ _ hc) hstep

theorem ReachableWith.reachable {s : σ} (hs : M.ReachableWith C s) : M.Reachable s :=
  hs.mono fun _ _ _ => trivial

/-- The invariant rule for unrestricted runs. -/
theorem Reachable.invariant {I : σ → Prop} (h₀ : ∀ s, M.init s → I s)
    (h : ∀ s a s', M.Reachable s → I s → M.step s a = some s' → I s')
    {s : σ} (hs : M.Reachable s) : I s :=
  ReachableWith.invariant h₀ (fun s a s' hr hi _ hstep => h s a s' hr hi hstep) hs

/-- What is reached from a reachable state is reachable. -/
theorem ReachableWith.trans {s s' : σ} (hs : M.ReachableWith C s) (h : M.RunsWith C s s') :
    M.ReachableWith C s' := by
  induction h with
  | refl => exact hs
  | step a _ hc hstep ih => exact .step a ih hc hstep

/-- Fewer restrictions on the steps allow more runs. -/
theorem RunsWith.mono {D : σ → α → Prop} (hCD : ∀ s a, C s a → D s a) {s s' : σ}
    (h : M.RunsWith C s s') : M.RunsWith D s s' := by
  induction h with
  | refl => exact .refl
  | step a _ hc hstep ih => exact .step a ih (hCD _ _ hc) hstep

/-- **The rule for runs.**  A relation to the first state that every step from a
reachable state keeps holds of the last state. -/
theorem RunsWith.keeps {R : σ → Prop} {s s' : σ} (h : M.RunsWith C s s')
    (hs : M.ReachableWith C s) (h₀ : R s)
    (hR : ∀ s' a s'', M.ReachableWith C s' → R s' → C s' a → M.step s' a = some s'' → R s'') :
    R s' := by
  induction h with
  | refl => exact h₀
  | step a hrun hc hstep ih => exact hR _ a _ (hs.trans hrun) ih hc hstep

/-- A run whose check implies `C` goes on from where a run has ended. -/
theorem RunsWith.run {ok : σ → α → Bool} (hok : ∀ s a, ok s a = true → C s a) {s₀ s s' : σ}
    (hs : M.RunsWith C s₀ s) : ∀ {as : List α}, M.run ok s as = some s' → M.RunsWith C s₀ s' := by
  intro as
  induction as generalizing s with
  | nil =>
    intro h
    obtain rfl := Option.some.inj h
    exact hs
  | cons a as ih =>
    intro h
    simp only [Machine.run] at h
    split_ifs at h with ha
    obtain ⟨s₁, hstep, hrun⟩ := Option.bind_eq_some_iff.1 h
    exact ih (.step a hs (hok s a ha) hstep) hrun

/-- A run whose check implies `C` ends in a state reached so. -/
theorem ReachableWith.run {ok : σ → α → Bool} (hok : ∀ s a, ok s a = true → C s a) {s s' : σ}
    (hs : M.ReachableWith C s) {as : List α} (h : M.run ok s as = some s') :
    M.ReachableWith C s' :=
  hs.trans (RunsWith.run hok .refl h)

/-! ### Simulation -/

variable {τ β : Type*}

/-- **A forward simulation.**  Seen through `abs`, a step of `M` is the step of `N` that
`event` names, or nothing if it names none. -/
structure Simulates (M : Machine σ α) (C : σ → α → Prop) (N : Machine τ β) (abs : σ → τ)
    (event : σ → α → Option β) : Prop where
  init : ∀ s, M.init s → N.init (abs s)
  step : ∀ s a s', M.ReachableWith C s → C s a → M.step s a = some s' →
    (event s a).elim (abs s' = abs s) fun b => N.step (abs s) b = some (abs s')

/-- What a simulation makes of a reachable state is reachable. -/
theorem Simulates.reachable {N : Machine τ β} {abs : σ → τ} {event : σ → α → Option β}
    (h : M.Simulates C N abs event) {s : σ} (hs : M.ReachableWith C s) : N.Reachable (abs s) := by
  refine hs.invariant (I := fun s => N.Reachable (abs s))
    (fun s hi => ReachableWith.init (h.init s hi)) fun s a s' hr ih hc hstep => ?_
  have hsim := h.step s a s' hr hc hstep
  cases hevent : event s a with
  | none =>
    rw [hevent] at hsim
    rw [show abs s' = abs s from hsim]
    exact ih
  | some b =>
    rw [hevent] at hsim
    exact ReachableWith.step b ih trivial hsim

end Machine
