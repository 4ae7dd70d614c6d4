/-
# The log a reader may still ask for

`sivfs_gc_log` deletes below the minimum of `latest_checkpoint_published` and of
all timestamps it finds reported.  Three readers start from a reported
timestamp: the validation of a commit and the update of the working set from the
thread's own one, the replay of a page from its checkpoint's.  Every entry above
a timestamp that a thread relies on is still there, still linked, and lookups
that start there are not refused (`log_kept`).
-/

import Sivfs.Checkout.Hazard

open TwoSlot

namespace Sivfs
namespace Checkout

/-- `stop_ts` is at most the published checkpoint and everything reported. -/
theorem stopTs_le (latest : ℕ) (seen : List Ts) :
    stopTs latest seen ≤ (latest : Ts) ∧ ∀ b ∈ seen, stopTs latest seen ≤ b := by
  have hfold : ∀ (seen : List Ts) (a : Ts), seen.foldl min a ≤ a ∧ ∀ b ∈ seen,
      seen.foldl min a ≤ b := by
    intro seen
    induction seen with
    | nil => exact fun a => ⟨le_rfl, by simp⟩
    | cons b seen ih =>
      intro a
      obtain ⟨hle, hseen⟩ := ih (min a b)
      constructor
      · exact hle.trans (min_le_left _ _)
      · intro c hc
        rcases List.mem_cons.1 hc with rfl | hc
        · exact hle.trans (min_le_right _ _)
        · exact hseen c hc
  exact hfold seen latest

/-- The collector stops at a timestamp. -/
theorem stopTs_coe (latest : ℕ) (seen : List Ts) : ∃ n : ℕ, stopTs latest seen = (n : Ts) := by
  obtain ⟨n, hn⟩ := WithTop.ne_top_iff_exists.1
    (ne_top_of_le_ne_top WithTop.coe_ne_top (stopTs_le latest seen).1)
  exact ⟨n, hn.symm⟩

variable {ι : Type*} {s s' : State ι}

/-- Nobody relies on a checkpoint before `t`, and the published one is not
before `t` either. -/
def Passed (s : State ι) (t : ℕ) : Prop :=
  t ≤ s.published ∧ ∀ i v, (slots s i).Holds v → t ≤ v

/-- What everyone is past, everyone stays past. -/
theorem Passed.mono (hi : Inv s) (hle : Le s s') {t : ℕ} (h : Passed s t)
    (hev : ∀ i, Slots.Evolves s.latestTs (slots s i) (slots s' i)) : Passed s' t := by
  refine ⟨h.1.trans hle.published, fun i v hv => ?_⟩
  rcases hev i v hv with ⟨hold, -⟩ | hnow
  · exact h.2 i v hold
  · exact not_lt.1 (hi.pub.latest_not_lt h.1 hnow)

/-- The bound of the log collector is passed. -/
theorem Haz.passed (hz : Haz s) {k : Collector} {latest t : ℕ} {seen : List Ts}
    (hg : s.gc k = .scan latest (.done seen)) (ht : (t : Ts) ≤ stopTs latest seen) :
    Passed s t := by
  obtain ⟨hpub, hcov⟩ := hz.covers k latest _ hg
  obtain ⟨hlatest, hseen⟩ := stopTs_le latest seen
  have htl : t ≤ latest := WithTop.coe_le_coe.1 (ht.trans hlatest)
  refine ⟨htl.trans hpub, fun i v hv => ?_⟩
  rcases Nat.lt_or_ge v latest with hlt | hge
  · exact WithTop.coe_le_coe.1 (ht.trans (hseen v (hcov i v hv hlt)))
  · exact htl.trans hge

/-- The log, and what was deleted of it. -/
structure LogInv (s : State ι) : Prop where
  key : ∀ t, (s.log t).isSome → 1 ≤ t ∧ t ≤ s.commitStartedTs
  linked : ∀ t nx, s.log t = some nx → t < s.commitStartedTs → nx = some (t + 1)
  deleted : ∀ t, 1 ≤ t → t ≤ s.commitStartedTs → s.log t = none → Passed s (t + 1)
  deletedTs : Passed s s.deletedTs

/-- A turn that leaves the log alone. -/
theorem LogInv.of_eq (hi : Inv s) (hle : Le s s') (h : LogInv s)
    (hev : ∀ i, Slots.Evolves s.latestTs (slots s i) (slots s' i)) (hl : s'.log = s.log)
    (hc : s'.commitStartedTs = s.commitStartedTs)
    (hd : s'.deletedTs = s.deletedTs ∨ Passed s s'.deletedTs) : LogInv s' := by
  refine ⟨by rw [hl, hc]; exact h.key, by rw [hl, hc]; exact h.linked, fun t h1 ht hn => ?_, ?_⟩
  · rw [hl] at hn
    rw [hc] at ht
    exact (h.deleted t h1 ht hn).mono hi hle hev
  · rcases hd with hd | hd
    · rw [hd]
      exact h.deletedTs.mono hi hle hev
    · exact hd.mono hi hle hev

/-- A new entry, and the link to it from the one before. -/
theorem append_log (s : State ι) (t : ℕ) : (append s).log t =
    if t = s.commitStartedTs + 1 then some none
    else if t = s.commitStartedTs then (s.log t).map fun _ => some (s.commitStartedTs + 1)
    else s.log t := by
  simp only [append, Function.update_apply]

/-- An entry that is appended is not freed. -/
theorem LogInv.append (h : LogInv s) : LogInv (append s) := by
  have hkey := h.key
  refine ⟨fun t ht => ?_, fun t nx ht hlt => ?_, fun t h1 ht hn => ?_, h.deletedTs⟩
  · rw [append_log] at ht
    show 1 ≤ t ∧ t ≤ s.commitStartedTs + 1
    split_ifs at ht with h₁ h₂
    · omega
    · have := hkey t (by simpa using ht)
      omega
    · have := hkey t ht
      omega
  · rw [append_log] at ht
    have hlt' : t < s.commitStartedTs + 1 := hlt
    split_ifs at ht with h₁ h₂
    · omega
    · obtain ⟨nx', -, rfl⟩ := Option.map_eq_some_iff.1 ht
      rw [h₂]
    · exact h.linked t nx ht (by omega)
  · rw [append_log] at hn
    have ht' : t ≤ s.commitStartedTs + 1 := ht
    split_ifs at hn with h₁ h₂
    · exact h.deleted t h1 (by omega) (by simpa using hn)
    · exact h.deleted t h1 (by omega) hn

/-- An entry may be freed once everyone is past it. -/
theorem LogInv.delete (h : LogInv s) {t : ℕ} (hp : Passed s (t + 1)) :
    LogInv { s with log := Function.update s.log t none } := by
  refine ⟨fun u hu => ?_, fun u nx hu hlt => ?_, fun u h1 hu hn => ?_, h.deletedTs⟩
  · by_cases hut : u = t
    · simp [hut] at hu
    · exact h.key u (by simpa [Function.update_of_ne hut] using hu)
  · by_cases hut : u = t
    · simp [hut] at hu
    · exact h.linked u nx (by simpa [Function.update_of_ne hut] using hu) hlt
  · by_cases hut : u = t
    · rw [hut]
      exact hp
    · exact h.deleted u h1 hu (by simpa [Function.update_of_ne hut] using hn)

section Runs

variable [DecidableEq ι]

/-- **Every turn keeps the log above what is passed.** -/
theorem LogInv.step (hi : Inv s) (hz : Haz s) (h : LogInv s) {a : Act ι}
    (hstep : step s a = some s') : LogInv s' := by
  have hle := (hi.step hstep).2
  have hev := step_evolves hi hstep
  cases a with
  | append =>
    obtain rfl := Option.some.inj hstep
    exact h.append
  | release =>
    simp only [Checkout.step, release] at hstep
    split_ifs at hstep
    obtain rfl := Option.some.inj hstep
    exact h.of_eq hi hle hev rfl rfl (.inl rfl)
  | maker a =>
    have ht := makerStep_turn hstep
    cases ht <;> exact h.of_eq hi hle hev rfl rfl (.inl rfl)
  | gc k a =>
    have ht := gcStep_turn hstep
    cases ht with
    | @delete latest t seen _ hg hlt =>
      refine h.delete (hz.passed hg ?_)
      obtain ⟨n, hn⟩ := stopTs_coe latest seen
      rw [hn] at hlt ⊢
      exact WithTop.coe_le_coe.2 (WithTop.coe_lt_coe.1 hlt)
    | @deleted latest seen hk hg =>
      refine h.of_eq hi hle hev rfl rfl (.inr (hz.passed hg ?_))
      obtain ⟨n, hn⟩ := stopTs_coe latest seen
      rw [hn]
      exact le_rfl
    | _ => exact h.of_eq hi hle hev rfl rfl (.inl rfl)
  | thread i a =>
    obtain ⟨th, reg, ht, rfl⟩ := threadStep_turn hstep
    exact h.of_eq hi hle hev rfl rfl (.inl rfl)

/-- It holds in every state. -/
theorem reachable_logInv (h : (machine ι).Reachable s) : LogInv s := by
  refine h.invariant (I := fun s => LogInv s) ?_ fun s a s' hr hl hstep =>
    hl.step (reachable_inv hr) (reachable_haz hr) hstep
  rintro s ⟨-, hst, hlog, hdel, -, -, -, -, -, -, -, -, -, -, -, -, hthr⟩
  refine ⟨fun t ht => by simp [hlog] at ht, fun t nx ht => by simp [hlog] at ht,
    fun t h1 ht => by omega, ?_⟩
  rw [hdel]
  exact ⟨Nat.zero_le _, fun i v _ => Nat.zero_le _⟩

/-- `b` is a point from which somebody may read the log: the published checkpoint
or a timestamp that a thread has validated and still reports. -/
def ReadsFrom (s : State ι) (b : ℕ) : Prop :=
  b = s.published ∨ ∃ i, (slots s i).Holds b

/-- **No log entry is deleted that may still be asked for.**  In every reachable
state every entry after the published checkpoint, and after every timestamp that
a thread relies on, is there for lookups that start after it, and is linked to
its successor. -/
theorem log_kept (h : (machine ι).Reachable s) {b start t : ℕ} (hb : ReadsFrom s b)
    (hstart : b < start) (ht : b < t) (hst : t ≤ s.commitStartedTs) :
    ∃ nx, tsToLogEntry s t start = .ok (some nx) ∧
      (t < s.commitStartedTs → nx = some (t + 1)) := by
  have hl := reachable_logInv h
  have hnot : ∀ u, Passed s u → u ≤ b := by
    intro u hu
    rcases hb with rfl | ⟨i, hi⟩
    · exact hu.1
    · exact hu.2 i b hi
  have hdel : ¬start < s.deletedTs := by
    have := hnot _ hl.deletedTs
    omega
  rw [tsToLogEntry, if_neg hdel]
  cases hlog : s.log t with
  | none =>
    have := hnot _ (hl.deleted t (by omega) hst hlog)
    omega
  | some nx => exact ⟨nx, rfl, hl.linked t nx hlog⟩

end Runs

/-- A thread holds the checkpoint of the second commit of five when the collector
deletes the first one's entry. -/
def collectedLog : List (Act Unit) :=
  [.append, .release, .append, .release] ++
    ([.start 1, .insert, .stamp, .mark, .finish, .finish, .finish, .finish].map .maker ++
      (firstCheckout ++ ([.append, .append, .append, .release] ++
        [.begin, .next, .next, .next, .next, .next, .delete 1, .stop].map (.gc .log))))

/-- After `collectedLog` the thread finds the fourth entry from the third on. -/
theorem log_kept_collectedLog : ∃ s, (machine Unit).Reachable s ∧ s.log 1 = none ∧
    s.deletedTs = 2 ∧ ReadsFrom s 2 ∧ 2 < 3 ∧ 2 < 4 ∧ 4 ≤ s.commitStartedTs ∧
    ∃ nx, tsToLogEntry s 4 3 = .ok (some nx) ∧ (4 < s.commitStartedTs → nx = some (4 + 1)) := by
  have h : ((machine Unit).run (fun _ _ => true) mounted collectedLog).map
      (fun s => (s.log 1, s.deletedTs, s.commitStartedTs, (slots s ()).prior)) =
      some (none, 2, 5, ((2 : ℕ) : Ts)) := by decide +kernel
  obtain ⟨s, hs, h⟩ := Option.map_eq_some_iff.1 h
  simp only [Prod.mk.injEq] at h
  obtain ⟨hlog, hdel, hstarted, hprior⟩ := h
  have hreach : (machine Unit).Reachable s :=
    Machine.ReachableWith.run (fun _ _ _ => trivial) (.init init_mounted) hs
  have hfrom : ReadsFrom s 2 := .inr ⟨(), .inr hprior⟩
  exact ⟨s, hreach, hlog, hdel, hfrom, by decide, by decide, by omega,
    log_kept hreach hfrom (by decide) (by decide) (by omega)⟩

end Checkout
end Sivfs
