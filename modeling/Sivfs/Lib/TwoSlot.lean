/-
# Two-slot reservations and a scan that reads them one at a time

A reader reserves the values it uses in two slots.  It *announces* a value in
`current` and may rely on it once it has *confirmed* that the value was still
the newest one after the announcement.  When it has moved over to the new value
it copies `current` to `prior`, which lets the old value go.

A collector reads a bound, then the slots of every registered reader, `current`
before `prior`, one read after the other.  `Scan.Covers` says that every value
below the bound that a reader relies on is among those already read or still
will be read.  It survives everything the readers do in between, because a
value below the bound can no longer be confirmed, and a value on its way out is
in `prior` before it leaves `current`.
-/

import Mathlib.Order.WithBot
import Mathlib.Tactic.Common

namespace TwoSlot

variable {ι α : Type*}

/-- The two slots of a reader; `⊤` is an empty slot. -/
structure Slots (α : Type*) where
  current : WithTop α
  prior : WithTop α
  /-- The value in `current` has been confirmed. -/
  confirmed : Bool

namespace Slots

/-- The reader relies on `v`. -/
def Holds (s : Slots α) (v : α) : Prop :=
  (s.confirmed = true ∧ s.current = (v : WithTop α)) ∨ s.prior = (v : WithTop α)

/-- Nothing reserved. -/
def empty : Slots α := ⟨⊤, ⊤, false⟩

/-- Announce a value. -/
def announce (s : Slots α) (v : WithTop α) : Slots α := { s with current := v, confirmed := false }

/-- Rely on the announced value. -/
def confirm (s : Slots α) : Slots α := { s with confirmed := true }

/-- Let the old value go. -/
def advance (s : Slots α) : Slots α := { s with prior := s.current }

/-- Empty the second slot. -/
def dropPrior (s : Slots α) : Slots α := { s with prior := ⊤ }

/-- Empty slots hold nothing. -/
theorem not_holds_empty (v : α) : ¬(empty : Slots α).Holds v := by
  rintro (⟨h, -⟩ | h)
  · simp [empty] at h
  · exact absurd h (WithTop.coe_ne_top).symm

/-- What a reader may do to its slots while `now` is the newest value: it relies
on nothing else than before, and what is in `prior` stays there as long as it
is relied on. -/
def Evolves (now : WithTop α) (s s' : Slots α) : Prop :=
  ∀ v : α, s'.Holds v →
    (s.Holds v ∧ (s.prior = (v : WithTop α) → s'.prior = (v : WithTop α))) ∨ now = (v : WithTop α)

/-- Slots may stay as they are. -/
theorem Evolves.refl (now : WithTop α) (s : Slots α) : Evolves now s s := fun _ h =>
  .inl ⟨h, id⟩

/-- Slots may be cleared. -/
theorem Evolves.of_empty (now : WithTop α) (s : Slots α) : Evolves now s empty := fun v h =>
  absurd h (not_holds_empty v)

/-- A value may be announced: it does not count before it is confirmed. -/
theorem evolves_announce (now : WithTop α) (s : Slots α) (v : WithTop α) :
    Evolves now s (s.announce v) := by
  rintro u (⟨h, -⟩ | h)
  · simp [announce] at h
  · exact .inl ⟨.inr h, id⟩

/-- It may be confirmed if it is still the one of now. -/
theorem evolves_confirm {now : WithTop α} {s : Slots α} (h : s.current = now) :
    Evolves now s s.confirm := by
  rintro u (⟨-, hu⟩ | hu)
  · exact .inr (h.symm.trans hu)
  · exact .inl ⟨.inr hu, id⟩

/-- The prior slot may follow a current one that is confirmed. -/
theorem evolves_advance {now : WithTop α} {s : Slots α} (h : s.confirmed = true ∨ s.current = ⊤) :
    Evolves now s s.advance := by
  intro u hu
  have hcur : s.current = (u : WithTop α) := hu.elim And.right id
  rcases h with h | h
  · exact .inl ⟨.inl ⟨h, hcur⟩, fun _ => hcur⟩
  · exact absurd (h.symm.trans hcur).symm WithTop.coe_ne_top

/-- The prior slot may be cleared. -/
theorem evolves_dropPrior {now : WithTop α} {s : Slots α} (h : s.confirmed = false) :
    Evolves now s s.dropPrior := by
  rintro u (⟨hc, -⟩ | hu)
  · simp [dropPrior, h] at hc
  · exact absurd hu.symm WithTop.coe_ne_top

end Slots

/-- How far a collector is: before it holds the lock, about to read the first or
the second slot of a reader, or through. -/
inductive Scan (ι α : Type*) where
  | waiting
  | current (rest : List ι) (seen : List (WithTop α))
  | prior (i : ι) (rest : List ι) (seen : List (WithTop α))
  | done (seen : List (WithTop α))

/-- Every value below `bound` that a reader relies on has been or will be
read. -/
def Scan.Covers [LT α] (sc : Scan ι α) (slots : ι → Slots α) (bound : α) : Prop :=
  ∀ i, ∀ v : α, (slots i).Holds v → v < bound →
    match sc with
    | .waiting => True
    | .current rest seen => i ∈ rest ∨ (v : WithTop α) ∈ seen
    | .prior j rest seen =>
      i ∈ rest ∨ (v : WithTop α) ∈ seen ∨ (i = j ∧ (slots i).prior = (v : WithTop α))
    | .done seen => (v : WithTop α) ∈ seen

namespace Scan

variable [LT α] {slots slots' : ι → Slots α} {bound : α}

/-- Readers that move on do not escape the scan, if the newest value is not
below the bound. -/
theorem Covers.evolve {sc : Scan ι α} (h : sc.Covers slots bound) {now : WithTop α}
    (hnow : ∀ v : α, now = (v : WithTop α) → ¬v < bound)
    (hev : ∀ i, (slots i).Evolves now (slots' i)) : sc.Covers slots' bound := by
  intro i v hv hlt
  rcases hev i v hv with ⟨hold, hprior⟩ | hfresh
  · have := h i v hold hlt
    cases sc with
    | waiting | current rest seen | done seen => exact this
    | prior j rest seen => exact this.imp_right fun h => h.imp_right fun h => ⟨h.1, hprior h.2⟩
  · exact absurd hlt (hnow v hfresh)

/-- The lock is taken: every registered reader is to be read. -/
theorem Covers.start {registered : List ι} (h : ∀ i, ∀ v : α, (slots i).Holds v → i ∈ registered) :
    (current registered []).Covers slots bound := fun i v hv _ =>
  .inl (h i v hv)

/-- The first slot of a reader is read. -/
theorem Covers.readCurrent {i : ι} {rest : List ι} {seen : List (WithTop α)}
    (h : (current (i :: rest) seen).Covers slots bound) :
    (prior i rest ((slots i).current :: seen)).Covers slots bound := by
  intro j v hv hlt
  rcases h j v hv hlt with hmem | hseen
  · rcases List.mem_cons.1 hmem with rfl | hrest
    · rcases hv with ⟨-, hcur⟩ | hprior
      · exact .inr (.inl (hcur ▸ List.mem_cons_self))
      · exact .inr (.inr ⟨rfl, hprior⟩)
    · exact .inl hrest
  · exact .inr (.inl (List.mem_cons_of_mem _ hseen))

/-- The second slot of a reader is read. -/
theorem Covers.readPrior {i : ι} {rest : List ι} {seen : List (WithTop α)}
    (h : (prior i rest seen).Covers slots bound) :
    (current rest ((slots i).prior :: seen)).Covers slots bound := by
  intro j v hv hlt
  rcases h j v hv hlt with hrest | hseen | ⟨rfl, hprior⟩
  · exact .inl hrest
  · exact .inr (List.mem_cons_of_mem _ hseen)
  · exact .inr (hprior ▸ List.mem_cons_self)

/-- No reader is left. -/
theorem Covers.finish {seen : List (WithTop α)}
    (h : (current [] seen).Covers slots bound) :
    (done seen).Covers slots bound := fun i v hv hlt =>
  (h i v hv hlt).resolve_left (by simp)

end Scan

end TwoSlot
