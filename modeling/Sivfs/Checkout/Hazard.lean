/-
# What the collectors see of the threads

A collector reads `latest_checkpoint_published` and then the two slots of each
thread.  A thread that validates a checkpoint afterwards validates one at least
as new.  So every older checkpoint that a thread still relies on was already
validated when the scan began, and the scan comes across it: `TwoSlot.Scan` at
the slots `checkpoint_ts` and `prior_checkpoint_ts`.
-/

import Sivfs.Checkout.Publication

open TwoSlot

namespace Sivfs
namespace Checkout

variable {ι : Type*} {s s' : State ι}

/-- The slots of the threads. -/
def slots (s : State ι) (i : ι) : Slots ℕ := (s.threads i).slots

/-- The next access of a thread changes its slots as a reader may. -/
theorem threadNext_evolves {th th' : Thread} (hk : Knows s th th.pc)
    (hn : threadNext s th = some th') : Slots.Evolves s.latestTs th.slots th'.slots := by
  have hsettled : Settled s th → th.slots.confirmed = true ∨ th.slots.current = ⊤ := by
    rintro (⟨x, hx⟩ | ⟨htop, -⟩)
    · exact .inl hx.confirmed
    · exact .inr htop
  unfold threadNext at hn
  rcases hpc : th.pc with
    _ | _ | v | v | v | _ | v | v | ⟨v, n⟩ | v | ok | _ | _ | _ | _ <;>
    rw [hpc] at hk <;> simp only [hpc, reduceCtorEq] at hn
  case publish =>
    obtain rfl := Option.some.inj hn
    exact Slots.evolves_announce _ _ _
  case validate =>
    split_ifs at hn with hv <;> obtain rfl := Option.some.inj hn
    · exact Slots.evolves_confirm (hk.2.trans hv.1.symm)
    · exact .refl _ _
  case advance =>
    split_ifs at hn <;> obtain rfl := Option.some.inj hn
    · exact Slots.evolves_advance (hsettled hk.1)
    · exact .refl _ _
  case pauseCheckpointTs =>
    obtain rfl := Option.some.inj hn
    exact Slots.evolves_announce _ _ _
  case pausePrior =>
    obtain rfl := Option.some.inj hn
    exact Slots.evolves_dropPrior hk.2
  case readLatest => split_ifs at hn <;> obtain rfl := Option.some.inj hn <;> exact .refl _ _
  case nullCheck => split_ifs at hn <;> obtain rfl := Option.some.inj hn <;> exact .refl _ _
  all_goals
    obtain rfl := Option.some.inj hn
    exact .refl _ _

/-- The newest checkpoint is not below any bound that a collector has read. -/
theorem Pub.latest_not_lt (hp : Pub s) {v bound : ℕ} (hb : bound ≤ s.published)
    (h : s.latestTs = (v : Ts)) : ¬v < bound := by
  have hv : v = ptrTs s := by
    rcases hp.latest with h' | h' <;> rw [h] at h'
    · exact absurd h' WithTop.coe_ne_top
    · exact WithTop.coe_injective h'
  have := hp.published_le
  omega

/-- Threads that rely on something are registered, and the scans cover them. -/
structure Haz (s : State ι) : Prop where
  idle : ∀ i, i ∉ s.registered → (s.threads i).pc = .idle
  registered : ∀ i v, (slots s i).Holds v → i ∈ s.registered
  covers : ∀ k latest sc, s.gc k = .scan latest sc →
    latest ≤ s.published ∧ sc.Covers (slots s) latest

/-- The scan of the collector that moves still covers the threads. -/
theorem GcTurn.covers (hz : Haz s) {k : Collector} (h : GcTurn s k s') {latest : ℕ}
    {sc : Scan ι ℕ} (hsc : s'.gc k = .scan latest sc) :
    latest ≤ s.published ∧ sc.Covers (slots s) latest := by
  cases h with
  | drain | begin | deleted | stop | stopLocked => simp [State.setGc] at hsc
  | readPublished _ =>
    simp only [State.setGc, Function.update_self, GcPc.scan.injEq] at hsc
    obtain ⟨rfl, rfl⟩ := hsc
    exact ⟨le_rfl, fun _ _ _ _ => trivial⟩
  | lock hg =>
    simp only [State.setGc, Function.update_self, GcPc.scan.injEq] at hsc
    obtain ⟨rfl, rfl⟩ := hsc
    exact ⟨(hz.covers k _ _ hg).1, .start hz.registered⟩
  | readCurrent hg =>
    simp only [State.setGc, Function.update_self, GcPc.scan.injEq] at hsc
    obtain ⟨rfl, rfl⟩ := hsc
    exact ⟨(hz.covers k _ _ hg).1, (hz.covers k _ _ hg).2.readCurrent⟩
  | readPrior hg =>
    simp only [State.setGc, Function.update_self, GcPc.scan.injEq] at hsc
    obtain ⟨rfl, rfl⟩ := hsc
    exact ⟨(hz.covers k _ _ hg).1, (hz.covers k _ _ hg).2.readPrior⟩
  | unlock hg =>
    simp only [State.setGc, Function.update_self, GcPc.scan.injEq] at hsc
    obtain ⟨rfl, rfl⟩ := hsc
    exact ⟨(hz.covers k _ _ hg).1, (hz.covers k _ _ hg).2.finish⟩
  | free | reassign | delete => exact hz.covers k _ _ hsc

section

variable [DecidableEq ι]

theorem ThreadTurn.evolves (hi : Inv s) {i : ι} {a : ThreadAct} {th : Thread} {reg : List ι}
    (h : ThreadTurn s i a th reg) : Slots.Evolves s.latestTs (slots s i) th.slots := by
  cases h with
  | register | unregister => exact .of_empty _ _
  | enter | updateFails => exact .refl _ _
  | next hn => exact threadNext_evolves (hi.knows i) hn

/-- Every turn changes the slots of every thread as a reader may. -/
theorem step_evolves (hi : Inv s) {a : Act ι} (h : step s a = some s') (i : ι) :
    Slots.Evolves s.latestTs (slots s i) (slots s' i) := by
  have hsame : s'.threads = s.threads → Slots.Evolves s.latestTs (slots s i) (slots s' i) := by
    intro hthr
    rw [slots, slots, hthr]
    exact .refl _ _
  cases a with
  | append =>
    obtain rfl := Option.some.inj h
    exact hsame rfl
  | release => exact hsame (hi.pub.release h).2
  | maker a => exact hsame (makerStep_turn h).frame.1
  | gc k a => exact hsame (gcStep_turn h).frame.1
  | thread j a =>
    obtain ⟨th, reg, ht, rfl⟩ := threadStep_turn h
    by_cases hij : i = j
    · subst hij
      simp only [slots, Function.update_self]
      exact ht.evolves hi
    · simp only [slots, Function.update_of_ne hij]
      exact .refl _ _

/-- A registered thread moves. -/
theorem Haz.of_mem (hz : Haz s) {i : ι} (hreg : i ∈ s.registered) (th : Thread) :
    (∀ j, j ∉ s.registered → (Function.update s.threads i th j).pc = .idle) ∧
      ∀ j v, (Function.update s.threads i th j).slots.Holds v → j ∈ s.registered := by
  refine ⟨fun j hj => ?_, fun j v hv => ?_⟩ <;> by_cases hji : j = i
  · subst hji
    exact absurd hreg hj
  · rw [Function.update_of_ne hji]
    exact hz.idle j hj
  · subst hji
    exact hreg
  · rw [Function.update_of_ne hji] at hv
    exact hz.registered j v hv

theorem Haz.thread_turn (hz : Haz s) {i : ι} {a : ThreadAct} {th : Thread} {reg : List ι}
    (h : ThreadTurn s i a th reg) :
    (∀ j, j ∉ reg → (Function.update s.threads i th j).pc = .idle) ∧
      ∀ j v, (Function.update s.threads i th j).slots.Holds v → j ∈ reg := by
  cases h with
  | register hnot =>
    refine ⟨fun j hj => ?_, fun j v hv => ?_⟩ <;> by_cases hji : j = i
    · subst hji
      simp [newState]
    · rw [Function.update_of_ne hji]
      exact hz.idle j fun h => hj (List.mem_append_left _ h)
    · subst hji
      exact List.mem_append_right _ (List.mem_singleton_self _)
    · rw [Function.update_of_ne hji] at hv
      exact List.mem_append_left _ (hz.registered j v hv)
  | unregister =>
    refine ⟨fun j hj => ?_, fun j v hv => ?_⟩ <;> by_cases hji : j = i
    · subst hji
      simp [newState]
    · rw [Function.update_of_ne hji]
      exact hz.idle j fun h => hj (List.mem_filter.2 ⟨h, by simpa using hji⟩)
    · subst hji
      rw [Function.update_self] at hv
      exact absurd hv (Slots.not_holds_empty v)
    · rw [Function.update_of_ne hji] at hv
      exact List.mem_filter.2 ⟨hz.registered j v hv, by simpa using hji⟩
  | enter hreg _ _ => exact hz.of_mem hreg _
  | next hn =>
    refine hz.of_mem ?_ _
    by_contra hnot
    simp [threadNext, hz.idle i hnot] at hn
  | updateFails hpc =>
    refine hz.of_mem ?_ _
    by_contra hnot
    rw [hz.idle i hnot] at hpc
    simp at hpc

/-- **Every turn keeps the scans complete.** -/
theorem Haz.step (hi : Inv s) (hz : Haz s) {a : Act ι} (h : step s a = some s') : Haz s' := by
  have hle := (hi.step h).2
  have hold : ∀ latest sc, latest ≤ s.published ∧ Scan.Covers sc (slots s) latest →
      latest ≤ s'.published ∧ sc.Covers (slots s') latest := fun latest sc hc =>
    ⟨hc.1.trans hle.published,
      hc.2.evolve (fun v hv => hi.pub.latest_not_lt hc.1 hv) fun i => step_evolves hi h i⟩
  have hsame : s'.threads = s.threads → s'.registered = s.registered → s'.gc = s.gc → Haz s' := by
    intro hthr hreg hgc
    refine ⟨by rw [hthr, hreg]; exact hz.idle, fun i v hv => ?_, fun k latest sc hsc => ?_⟩
    · rw [slots, hthr] at hv
      rw [hreg]
      exact hz.registered i v hv
    · rw [hgc] at hsc
      exact hold latest sc (hz.covers k latest sc hsc)
  cases a with
  | append =>
    obtain rfl := Option.some.inj h
    exact hsame rfl rfl rfl
  | release =>
    simp only [Checkout.step, release] at h
    split_ifs at h
    obtain rfl := Option.some.inj h
    exact hsame rfl rfl rfl
  | maker a =>
    obtain ⟨hthr, hreg, hgc⟩ := (makerStep_turn h).frame
    exact hsame hthr hreg hgc
  | gc k a =>
    have ht := gcStep_turn h
    obtain ⟨hthr, hreg, hgc⟩ := ht.frame
    refine ⟨by rw [hthr, hreg]; exact hz.idle, fun i v hv => ?_, fun k' latest sc hsc => ?_⟩
    · rw [slots, hthr] at hv
      rw [hreg]
      exact hz.registered i v hv
    · by_cases hk : k' = k
      · subst hk
        exact hold latest sc (ht.covers hz hsc)
      · rw [hgc k' hk] at hsc
        exact hold latest sc (hz.covers k' latest sc hsc)
  | thread i a =>
    obtain ⟨th, reg, ht, rfl⟩ := threadStep_turn h
    obtain ⟨hidle, hreg⟩ := hz.thread_turn ht
    exact ⟨hidle, hreg, fun k latest sc hsc => hold latest sc (hz.covers k latest sc hsc)⟩

theorem reachable_haz (h : (machine ι).Reachable s) : Haz s := by
  refine h.invariant (I := fun s => Haz s) ?_ fun s a s' hr hz hstep =>
    hz.step (reachable_inv hr) hstep
  rintro s ⟨-, -, -, -, -, -, -, -, -, -, -, -, -, hgc, -, -, hthr⟩
  refine ⟨fun i _ => by rw [hthr]; rfl, fun i v hv => ?_, fun k latest sc hsc => ?_⟩
  · rw [slots, hthr] at hv
    exact absurd hv (Slots.not_holds_empty v)
  · rw [hgc] at hsc
    simp at hsc

end

end Checkout
end Sivfs
