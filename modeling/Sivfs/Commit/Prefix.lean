/-
# The committed prefix

What `master_ts` promises: the entries up to it are decided for good, and a walk
along `next` that is bounded by it sees exactly them, however far the committers
behind it have come.

An entry is linked before anything is in it.  Until it is stamped its timestamp is
`SIVFS_INVALID_TS`, which is above every bound.
-/

import Sivfs.Commit.FirstCommitter

namespace Sivfs
namespace Commit

section Prefix

variable {ι : Type*} {s s' : State ι}

/-- What is known of entries up to `master_ts`, and of the last one. -/
structure Settled (s : State ι) : Prop where
  last : ∀ e, s.log s.top = some e → e.next = none
  stamps : ∀ t e, s.log t = some e → e.ts = (t : Ts) ∨ e.ts = invalidTs
  cut : ∃ d ≤ s.masterTs, ∀ t e, s.log t = some e → (e.freed = true ↔ t < d)
  filled : ∀ t e, s.log t = some e → t ≤ s.masterTs → e.commitStatusFilledIn = true
  releasing : ∀ i n own, s.pc i = .release n → s.log n = some own →
    own.commitStatusFilledIn = true

/-- After mounting. -/
theorem init_settled (h : Init s) : Settled s := by
  obtain ⟨-, -, -, hlog, -, -, hthr⟩ := h
  have hpc : ∀ i, s.pc i = .idle := fun i => by rw [State.pc, hthr]
  constructor <;> simp [hlog, hpc]
  exact ⟨0, Nat.zero_le _⟩

/-- Where a thread gets by a move, it does not release anything. -/
theorem Moves.ne_release {i : ι} {p p' : Pc} (h : Moves s i p p') (n : ℕ) : p' ≠ .release n := by
  cases h <;> simp

/-- A turn that leaves the log alone, and after which a thread is about to release
only if it was before. -/
theorem Settled.of_log_eq (h : Settled s) (hlog : s'.log = s.log) (htop : s'.latest = s.latest)
    (hm : s'.masterTs = s.masterTs) (hpc : ∀ i n, s'.pc i = .release n → s.pc i = .release n) :
    Settled s' := by
  have htop' : s'.top = s.top := by rw [State.top, State.top, htop]
  constructor
  · rw [hlog, htop']
    exact h.last
  · rw [hlog]
    exact h.stamps
  · rw [hlog, hm]
    exact h.cut
  · rw [hlog, hm]
    exact h.filled
  · intro i n own hi hown
    rw [hlog] at hown
    exact h.releasing i n own (hpc i n hi) hown

/-- A deletion cuts the log further on, and no further than `master_ts`. -/
theorem Settled.delete (h : Settled s) {stop : ℕ} (hk : LogKept s (.deleteLog stop)) :
    Settled (deleteLog s stop) := by
  have hlog : ∀ t e', (deleteLog s stop).log t = some e' → ∃ e, s.log t = some e ∧
      e' = if t < stop then { e with freed := true } else e := by
    intro t e' he'
    obtain ⟨e, he, rfl⟩ := Option.map_eq_some_iff.1 he'
    exact ⟨e, he, rfl⟩
  constructor
  · intro e' he'
    obtain ⟨e, he, rfl⟩ := hlog _ e' he'
    have := h.last e he
    split_ifs <;> exact this
  · intro t e' he'
    obtain ⟨e, he, rfl⟩ := hlog t e' he'
    have := h.stamps t e he
    split_ifs <;> exact this
  · obtain ⟨d, hd, hcut⟩ := h.cut
    refine ⟨max d stop, max_le hd hk.1, fun t e' he' => ?_⟩
    obtain ⟨e, he, rfl⟩ := hlog t e' he'
    rw [lt_max_iff, ← hcut t e he]
    split_ifs with hlt
    · simp [hlt]
    · simp [hlt]
  · intro t e' he' ht
    obtain ⟨e, he, rfl⟩ := hlog t e' he'
    have := h.filled t e he ht
    split_ifs <;> exact this
  · intro i n own' hi hown'
    obtain ⟨own, hown, rfl⟩ := hlog n own' hown'
    have := h.releasing i n own hi hown
    split_ifs <;> exact this

/-! ### Turns -/

/-- What a store does to the own entry. -/
theorem Stores.settles {n : ℕ} {own own' : LogEntry} {p p' : Pc} (h : Stores s n own p p' own') :
    own'.next = own.next ∧ own'.freed = own.freed ∧ (own'.ts = own.ts ∨ own'.ts = (n : Ts)) ∧
      p.owned = some n ∧ ∀ m, p' = .release m → m = n ∧ own'.commitStatusFilledIn = true := by
  cases h <;> simp [Pc.owned]

variable [DecidableEq ι]

/-- A thread moves without a release. -/
theorem Settled.goto (h : Settled s) (s₁ : State ι) (hlog : s₁.log = s.log)
    (htop : s₁.latest = s.latest) (hm : s₁.masterTs = s.masterTs) (hthr : s₁.threads = s.threads)
    {i : ι} {p : Pc} (hp : ∀ n, p ≠ .release n) : Settled (s₁.goto i p) := by
  refine h.of_log_eq hlog htop hm fun j n hj => ?_
  by_cases hji : j = i
  · subst hji
    rw [State.goto_pc_self] at hj
    exact absurd hj (hp n)
  · rwa [s₁.goto_pc_of_ne p hji, State.pc, hthr] at hj

/-- A store is to an entry above `master_ts`, so what is known of the others stays. -/
theorem Settled.store (hc : Ctl s) (h : Settled s) {i : ι} {n : ℕ} {own own' : LogEntry} {p : Pc}
    (hown : s.log n = some own) (hs : Stores s n own (s.pc i) p own') :
    Settled ((s.setEntry n own').goto i p) := by
  obtain ⟨hnext, hfreed, hts, howned, hrel⟩ := hs.settles
  obtain ⟨hlt, -⟩ := hc.owned i n howned
  have hlog : ∀ t e', ((s.setEntry n own').goto i p).log t = some e' →
      t = n ∧ e' = own' ∨ t ≠ n ∧ s.log t = some e' := by
    intro t e' he'
    rw [State.goto_log] at he'
    by_cases htn : t = n
    · subst htn
      rw [State.setEntry_log_self] at he'
      exact .inl ⟨rfl, (Option.some.inj he').symm⟩
    · rw [s.setEntry_log_of_ne own' htn] at he'
      exact .inr ⟨htn, he'⟩
  constructor
  · intro e' he'
    rcases hlog _ e' he' with ⟨ht, rfl⟩ | ⟨-, he⟩
    · rw [hnext]
      exact h.last own (ht ▸ hown)
    · exact h.last e' he
  · intro t e' he'
    rcases hlog t e' he' with ⟨rfl, rfl⟩ | ⟨-, he⟩
    · rcases hts with hts | hts
      · rw [hts]
        exact h.stamps t own hown
      · exact .inl hts
    · exact h.stamps t e' he
  · obtain ⟨d, hd, hcut⟩ := h.cut
    refine ⟨d, hd, fun t e' he' => ?_⟩
    rcases hlog t e' he' with ⟨rfl, rfl⟩ | ⟨-, he⟩
    · rw [hfreed]
      exact hcut t own hown
    · exact hcut t e' he
  · intro t e' he' ht
    have ht : t ≤ s.masterTs := ht
    rcases hlog t e' he' with ⟨rfl, -⟩ | ⟨-, he⟩
    · omega
    · exact h.filled t e' he ht
  · intro j m own₁ hj hown₁
    by_cases hji : j = i
    · subst hji
      rw [State.goto_pc_self] at hj
      obtain ⟨rfl, hfilled⟩ := hrel m hj
      rcases hlog m own₁ hown₁ with ⟨-, rfl⟩ | ⟨hne, -⟩
      · exact hfilled
      · exact absurd rfl hne
    · rw [State.goto_pc_of_ne _ _ hji] at hj
      have hpcj : s.pc j = .release m := hj
      rcases hlog m own₁ hown₁ with ⟨rfl, -⟩ | ⟨-, he⟩
      · exact absurd (hc.owned_inj j i m (by rw [hpcj]; rfl) howned) hji
      · exact h.releasing j m own₁ hpcj he

/-- A new entry is behind all that are settled. -/
theorem Settled.create (hc : Ctl s) (h : Settled s) {i : ι} {ws : List WsEntry}
    (hpc : s.pc i = .create ws) :
    Settled ((s.createLogEntry (s.commitStartedTs + 1) (s.threads i).ts).goto i
      (.write ws (s.commitStartedTs + 1) .started)) := by
  have hi : (s.pc i).inLock = true := by rw [hpc]; rfl
  have htop : s.commitStartedTs = s.top := hc.started_eq hi (by rw [hpc]; rfl)
  have hmaster : s.masterTs ≤ s.top := htop ▸ hc.master_le
  set n := s.commitStartedTs + 1 with hn
  set s₁ := (s.createLogEntry n (s.threads i).ts).goto i (.write ws n .started) with hs₁
  have hlog : ∀ t e', s₁.log t = some e' → t = n ∧ e' = initLogEntry (s.threads i).ts ∨
      ∃ e, s.log t = some e ∧ e'.ts = e.ts ∧ e'.freed = e.freed ∧
        e'.commitStatusFilledIn = e.commitStatusFilledIn := by
    intro t e' he'
    rw [hs₁, State.goto_log, createLogEntry_log] at he'
    split_ifs at he' with ht
    · exact .inl ⟨ht, (Option.some.inj he').symm⟩
    · unfold State.linkLatest at he'
      split_ifs at he'
      · obtain ⟨e, he, rfl⟩ := Option.map_eq_some_iff.1 he'
        exact .inr ⟨e, he, rfl, rfl, rfl⟩
      · exact .inr ⟨e', he', rfl, rfl, rfl⟩
  have hle : ∀ t e, s.log t = some e → t ≤ s.top := fun t e he =>
    ((hc.alloc t).1 (by simp [he])).2
  constructor
  · intro e' he'
    have hself : s₁.log n = some (initLogEntry (s.threads i).ts) := by
      rw [hs₁, State.goto_log, createLogEntry_log, if_pos rfl]
    have he' : s₁.log n = some e' := he'
    obtain rfl := Option.some.inj (hself.symm.trans he')
    rfl
  · intro t e' he'
    rcases hlog t e' he' with ⟨-, rfl⟩ | ⟨e, he, hts, -⟩
    · exact .inr rfl
    · rw [hts]
      exact h.stamps t e he
  · obtain ⟨d, hd, hcut⟩ := h.cut
    refine ⟨d, hd, fun t e' he' => ?_⟩
    rcases hlog t e' he' with ⟨rfl, rfl⟩ | ⟨e, he, -, hf, -⟩
    · refine iff_of_false (by simp [initLogEntry]) ?_
      omega
    · rw [hf]
      exact hcut t e he
  · intro t e' he' ht
    have ht : t ≤ s.masterTs := ht
    rcases hlog t e' he' with ⟨rfl, -⟩ | ⟨e, he, -, -, hf⟩
    · omega
    · rw [hf]
      exact h.filled t e he ht
  · intro j m own' hj hown'
    by_cases hji : j = i
    · subst hji
      rw [hs₁, State.goto_pc_self] at hj
      simp at hj
    · rw [hs₁, State.goto_pc_of_ne _ _ hji] at hj
      have hpcj : s.pc j = .release m := hj
      rcases hlog m own' hown' with ⟨rfl, -⟩ | ⟨own, hown, -, -, hf⟩
      · have := (hc.owned j _ (by rw [hpcj]; rfl)).2
        omega
      · rw [hf]
        exact h.releasing j m own hpcj hown

/-- **The prefix stays settled.**  Every turn keeps `Settled`. -/
theorem Settled.turn (hc : Ctl s) (h : Settled s) (ht : Turn s s') : Settled s' := by
  cases ht with
  | snapshot i ts hpc _ =>
    exact h.of_log_eq rfl rfl rfl fun j n hj => by rwa [State.snapshot_pc hpc ts] at hj
  | move hm => exact h.goto s rfl rfl rfl rfl hm.ne_release
  | store hown hs => exact h.store hc (State.deref_eq_some.1 hown).1 hs
  | @acquire i ws _ _ => exact h.goto { s with commitLock := some i } rfl rfl rfl rfl (by simp)
  | createFails _ => exact h.goto { s with commitLock := none } rfl rfl rfl rfl (by simp)
  | create hpc => exact h.create hc hpc
  | @started i ws n _ => exact h.goto { s with commitStartedTs := n } rfl rfl rfl rfl (by simp)
  | unlock _ => exact h.goto { s with commitLock := none } rfl rfl rfl rfl (by simp)
  | @release i n hpc hm =>
    have hlt := (hc.owned i n (by rw [hpc]; rfl)).1
    have hsame : Settled (s.goto i (.report n)) := h.goto s rfl rfl rfl rfl (by simp)
    refine ⟨hsame.last, hsame.stamps, ?_, fun t e he hle => ?_, hsame.releasing⟩
    · obtain ⟨d, hd, hcut⟩ := h.cut
      exact ⟨d, hd.trans hlt.le, hcut⟩
    · have hle : t ≤ n := hle
      rcases Nat.eq_or_lt_of_le hle with rfl | hlt'
      · exact h.releasing i t e hpc he
      · exact h.filled t e he (by omega)
  | delete stop hk => exact h.delete hk

/-- `master_ts` advances by one. -/
theorem Turn.masterTs (hc : Ctl s) (ht : Turn s s') :
    s'.masterTs = s.masterTs ∨ s'.masterTs = s.masterTs + 1 := by
  cases ht with
  | @release i n hpc hm =>
    have hlt := (hc.owned i n (by rw [hpc]; rfl)).1
    right
    show n = s.masterTs + 1
    omega
  | _ => exact .inl rfl

/-- What is written to an entry up to `master_ts`: its links, and that it is freed. -/
structure Decided (e e' : LogEntry) : Prop where
  ts : e'.ts = e.ts
  ws : e'.ws = e.ws
  aborted : e'.aborted = e.aborted
  commitStatusFilledIn : e'.commitStatusFilledIn = e.commitStatusFilledIn

/-- **An entry up to `master_ts` is decided.** -/
theorem Turn.decided (hc : Ctl s) (ht : Turn s s') {t : ℕ} {e : LogEntry} (he : s.log t = some e)
    (hle : t ≤ s.masterTs) : ∃ e', s'.log t = some e' ∧ Decided e e' := by
  have hsame : s'.log = s.log → ∃ e', s'.log t = some e' ∧ Decided e e' := fun hlog =>
    ⟨e, by rw [hlog, he], rfl, rfl, rfl, rfl⟩
  cases ht with
  | @store i n own own' p hown hs =>
    have hlt := (hc.owned i n hs.settles.2.2.2.1).1
    refine ⟨e, ?_, rfl, rfl, rfl, rfl⟩
    rw [State.goto_log, s.setEntry_log_of_ne own' (by omega), he]
  | @create i ws hpc =>
    have hi : (s.pc i).inLock = true := by rw [hpc]; rfl
    have htop : s.commitStartedTs = s.top := hc.started_eq hi (by rw [hpc]; rfl)
    have hmaster := hc.master_le
    rw [State.goto_log, createLogEntry_log, if_neg (by omega), State.linkLatest]
    split_ifs
    · exact ⟨{ e with next := some (s.commitStartedTs + 1) }, by rw [he]; rfl, rfl, rfl, rfl, rfl⟩
    · exact ⟨e, he, rfl, rfl, rfl, rfl⟩
  | delete stop _ =>
    refine ⟨if t < stop then { e with freed := true } else e, ?_, ?_⟩
    · show (s.log t).map _ = _
      rw [he]
      rfl
    · split_ifs <;> exact ⟨rfl, rfl, rfl, rfl⟩
  | _ => exact hsame rfl

/-- Entries stay in the list. -/
theorem Turn.top_le (hc : Ctl s) (ht : Turn s s') : s.top ≤ s'.top := by
  cases ht with
  | @create i ws hpc =>
    have hi : (s.pc i).inLock = true := by rw [hpc]; rfl
    have htop : s.commitStartedTs = s.top := hc.started_eq hi (by rw [hpc]; rfl)
    show s.top ≤ s.commitStartedTs + 1
    omega
  | _ => exact le_rfl

/-- The invariants hold along every run in which the log is kept. -/
theorem settled (h : (protocol ι).ReachableWith LogKept s) : Settled s :=
  h.invariant (fun _ hs => init_settled hs) fun _ _ _ hr hi hk hstep =>
    hi.turn (invariants hr).1 (step_turn hstep hk)

/-! ### Whole runs -/

/-- What later states make of a state. -/
structure Later (s s' : State ι) : Prop where
  masterTs_le : s.masterTs ≤ s'.masterTs
  top_le : s.top ≤ s'.top
  decided : ∀ t e, s.log t = some e → t ≤ s.masterTs → ∃ e', s'.log t = some e' ∧ Decided e e'

/-- **The committed prefix is stable.** -/
theorem later (hs : (protocol ι).ReachableWith LogKept s)
    (h : (protocol ι).RunsWith LogKept s s') : Later s s' := by
  refine h.keeps (R := Later s) hs ⟨le_rfl, le_rfl, fun t e he _ => ⟨e, he, rfl, rfl, rfl, rfl⟩⟩ ?_
  intro s₁ a s₂ hr hlater hk hstep
  have hc := (invariants hr).1
  have ht := step_turn hstep hk
  have hmaster : s₁.masterTs ≤ s₂.masterTs := by
    rcases ht.masterTs hc with h | h <;> omega
  refine ⟨hlater.masterTs_le.trans hmaster, hlater.top_le.trans (ht.top_le hc), ?_⟩
  intro t e he hle
  obtain ⟨e₁, he₁, hd₁⟩ := hlater.decided t e he hle
  obtain ⟨e₂, he₂, hd₂⟩ := ht.decided hc he₁ (hle.trans hlater.masterTs_le)
  exact ⟨e₂, he₂, hd₂.ts.trans hd₁.ts, hd₂.ws.trans hd₁.ws, hd₂.aborted.trans hd₁.aborted,
    hd₂.commitStatusFilledIn.trans hd₁.commitStatusFilledIn⟩

/-! ### Walks -/

/-- The loops along `next`: an entry is visited, `next` is read, and if the
timestamp there is not above `b` the loop goes on with it.  Others take turns
meanwhile: the `k`-th access finds the state `σ k`. -/
def walk (b : ℕ) : ℕ → (ℕ → State ι) → ℕ → Option (List ℕ)
  | 0, _, _ => none
  | fuel + 1, σ, c =>
    match (σ 0).deref c with
    | none => none
    | some e =>
      match e.next with
      | none => some [c]
      | some d =>
        match (σ 1).deref d with
        | none => none
        | some e' =>
          if (b : Ts) < e'.ts then some [c]
          else (walk b fuel (fun k => σ (k + 2)) d).map (c :: ·)

/-- An entry that is not garbage collected, and those behind it. -/
theorem deref_of_le (hs : (protocol ι).ReachableWith LogKept s) {c t : ℕ}
    (hc : (s.deref c).isSome = true) (hle : c ≤ t) (htop : t ≤ s.top) :
    ∃ e, s.deref t = some e := by
  obtain ⟨hctl, -⟩ := invariants hs
  obtain ⟨d, -, hcut⟩ := (settled hs).cut
  obtain ⟨e, he⟩ := Option.isSome_iff_exists.1 hc
  obtain ⟨hlog, hfreed⟩ := State.deref_eq_some.1 he
  have hpos := ((hctl.alloc c).1 (by simp [hlog])).1
  have hd : ¬c < d := by
    rw [← hcut c e hlog, hfreed]
    simp
  obtain ⟨e', he'⟩ := Option.isSome_iff_exists.1 ((hctl.alloc t).2 ⟨by omega, htop⟩)
  refine ⟨e', State.deref_eq_some.2 ⟨he', ?_⟩⟩
  rw [Bool.eq_false_iff, ne_eq, hcut t e' he']
  omega

/-- An entry up to `master_ts` is stamped. -/
theorem stamped_of_le (hs : (protocol ι).ReachableWith LogKept s) {t : ℕ} {e : LogEntry}
    (he : s.log t = some e) (hle : t ≤ s.masterTs) : e.ts = (t : Ts) := by
  obtain ⟨hctl, hlinks, -⟩ := invariants hs
  refine hlinks.stamped t e he fun i _ ho => ?_
  have := (hctl.owned i t ho).1
  omega

/-- What is released is in the log. -/
theorem masterTs_le_top (hs : (protocol ι).ReachableWith LogKept s) : s.masterTs ≤ s.top := by
  obtain ⟨hctl, -⟩ := invariants hs
  have hle := hctl.master_le
  rcases hctl.started with h | ⟨-, h⟩ <;> omega

/-- **A walk bounded by `master_ts`**, at `c`, visits the entries from there up to the
bound and no other, while committers go on. -/
theorem walk_eq {a b c fuel : ℕ} (hfuel : b < c + fuel) (hac : a ≤ c) (hcb : c ≤ b) :
    ∀ {σ : ℕ → State ι}, (protocol ι).ReachableWith LogKept (σ 0) →
      (∀ k, (protocol ι).RunsWith LogKept (σ k) (σ (k + 1))) →
      (∀ k, ((σ k).deref a).isSome = true) → b ≤ (σ 0).masterTs →
      walk b fuel σ c = some (List.range' c (b + 1 - c)) := by
  induction fuel generalizing c with
  | zero => omega
  | succ fuel ih =>
    intro σ hreach hruns hkept hb
    have hreach₁ : (protocol ι).ReachableWith LogKept (σ 1) := hreach.trans (hruns 0)
    have hlater : Later (σ 0) (σ 1) := later hreach (hruns 0)
    have hmaster := masterTs_le_top hreach
    obtain ⟨e, he⟩ := deref_of_le hreach (hkept 0) hac (by omega)
    have hlog := (State.deref_eq_some.1 he).1
    rcases Nat.eq_or_lt_of_le (show c ≤ (σ 0).top by omega) with htop | htop
    · have hnext := (settled hreach).last e (htop ▸ hlog)
      obtain rfl : c = b := by omega
      simp [walk, he, hnext]
    · have hnext := (invariants hreach).2.1.linked c e hlog htop
      obtain ⟨e', he'⟩ := deref_of_le hreach₁ (hkept 1) (Nat.le_succ_of_le hac)
        (htop.trans_le hlater.top_le)
      have hlog' := (State.deref_eq_some.1 he').1
      rcases Nat.eq_or_lt_of_le hcb with rfl | hlt
      · have hts : (c : Ts) < e'.ts := by
          rcases (settled hreach₁).stamps _ e' hlog' with h | h <;> rw [h]
          · exact WithTop.coe_lt_coe.2 (Nat.lt_succ_self c)
          · exact WithTop.coe_lt_top c
        simp [walk, he, hnext, he', hts]
      · have hb₁ : b ≤ (σ 1).masterTs := hb.trans hlater.masterTs_le
        have hts : ¬(b : Ts) < e'.ts := by
          rw [stamped_of_le hreach₁ hlog' (by omega)]
          exact not_lt.2 (WithTop.coe_le_coe.2 hlt)
        have hlater₁ : Later (σ 1) (σ 2) := later hreach₁ (hruns 1)
        have htail := @ih (c + 1) (by omega) (by omega) hlt (fun k => σ (k + 2))
          (hreach₁.trans (hruns 1)) (fun k => hruns (k + 2)) (fun k => hkept (k + 2))
          (hb₁.trans hlater₁.masterTs_le)
        simp only [walk, he, hnext, he', if_neg hts, htail, Option.map_some, Option.some.injEq]
        rw [show b + 1 - c = b + 1 - (c + 1) + 1 by omega, List.range'_succ]

end Prefix

end Commit
end Sivfs
