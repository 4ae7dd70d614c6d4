/-
# Why a commit aborts

`firstCommitter_wins` says which commits go through.  Here is the other direction: a commit
aborts only if a transaction that is concurrent with it, one behind its snapshot and before
it in the log, writes a word that it writes, or if the thread has no snapshot (`Judged`).

That transaction need not be committed itself.  A thread that validates against an entry
whose own status is still open is too careful, and nothing takes its verdict back.
-/

import Sivfs.Commit.Window

namespace Sivfs
namespace Commit

/-! ### What a thread has seen when it goes on -/

section Seen

variable {ι : Type*} [DecidableEq ι] {s s' : State ι} {a : Act ι} {i : ι} {n c : ℕ}

/-- A thread that validates goes on by itself. -/
theorem step_examines (h : step s a = some s') (hpc : (s.pc i).examines = some c)
    (hmoves : s'.pc i ≠ s.pc i) : a = .next i := by
  have hthread : a.thread = some i := by
    by_contra hne
    exact hmoves (step_pc_of_ne h hne)
  rw [State.pc] at hpc
  cases a with
  | next j =>
    obtain rfl := Option.some.inj hthread
    rfl
  | deleteLog stop => cases hthread
  | checkout j | pause j | begin j ws =>
    obtain rfl := Option.some.inj hthread
    simp only [step] at h
    split_ifs at h with hidle
    rw [hidle] at hpc
    cases hpc
  | interrupt j | acquire j | createFails j =>
    obtain rfl := Option.some.inj hthread
    simp only [step] at h
    split at h
    · rename_i hp
      rw [hp] at hpc
      cases hpc
    · simp at h

/-- What a thread has read that goes on with its validation. -/
structure Seen (s s' : State ι) (i : ι) : Prop where
  visit : ∀ n c, s.pc i = .visit n c → s'.pc i = .compare n c → ∃ e, s.log c = some e
  compare : ∀ n c own', s.pc i = .compare n c → s'.pc i = .visited n c → s'.log n = some own' →
    own'.aborted = true → ∃ own e, s.log n = some own ∧ s.log c = some e ∧
      (own.aborted = true ∨ SharesWord own.ws e.ws)
  visited : ∀ n c, s.pc i = .visited n c → s'.pc i = .abort n →
    ∃ own, s.log n = some own ∧ own.aborted = true

/-- A read that did not fault found an entry. -/
theorem exists_of_withEntry {t : ℕ} {k : LogEntry → State ι} (h : s.withEntry i t k = s')
    (hpc : s'.pc i ≠ .fault) : ∃ e, s.deref t = some e ∧ k e = s' := by
  rw [State.withEntry] at h
  cases hd : s.deref t with
  | none =>
    rw [hd] at h
    subst h
    exact absurd (State.goto_pc_self ..) hpc
  | some e =>
    rw [hd] at h
    exact ⟨e, rfl, h⟩

/-- **A thread goes on with what it has read.** -/
theorem step_seen (h : step s a = some s') : Seen s s' i := by
  have hnext : ∀ p, s.pc i = p → p.examines.isSome → s'.pc i ≠ p → next s i = some s' := by
    rintro p rfl hex hne
    obtain ⟨c, hc⟩ := Option.isSome_iff_exists.1 hex
    obtain rfl := step_examines h hc hne
    exact h
  refine ⟨fun n c hp hp' => ?_, fun n c own' hp hp' hown' hab => ?_, fun n c hp hp' => ?_⟩
  · have hstep := hnext _ hp rfl (by simp [hp'])
    simp only [next, show (s.threads i).pc = _ from hp, Option.some.injEq] at hstep
    obtain ⟨e, he, -⟩ := exists_of_withEntry hstep (by simp [hp'])
    exact ⟨e, (State.deref_eq_some.1 he).1⟩
  · have hstep := hnext _ hp rfl (by simp [hp'])
    simp only [next, show (s.threads i).pc = _ from hp, Option.some.injEq] at hstep
    obtain ⟨own, hown, hstep⟩ := exists_of_withEntry hstep (by simp [hp'])
    obtain ⟨e, he, hstep⟩ := exists_of_withEntry hstep (by simp [hp'])
    refine ⟨own, e, (State.deref_eq_some.1 hown).1, (State.deref_eq_some.1 he).1, ?_⟩
    split_ifs at hstep with hconflict
    · exact .inr (wsConflicts_iff.1 hconflict)
    · subst hstep
      rw [State.goto_log, (State.deref_eq_some.1 hown).1] at hown'
      obtain rfl := Option.some.inj hown'
      exact .inl hab
  · have hstep := hnext _ hp rfl (by simp [hp'])
    simp only [next, show (s.threads i).pc = _ from hp, Option.some.injEq] at hstep
    obtain ⟨own, hown, hstep⟩ := exists_of_withEntry hstep (by simp [hp'])
    obtain ⟨e, -, hstep⟩ := exists_of_withEntry hstep (by simp [hp'])
    refine ⟨own, (State.deref_eq_some.1 hown).1, ?_⟩
    by_contra hno
    subst hstep
    rw [State.goto_pc_self, if_neg hno] at hp'
    split_ifs at hp'

end Seen

/-! ### What an abort flag says -/

section Judged

variable {ι : Type*} {s s' : State ι} {i : ι} {n t : ℕ} {own own' e : LogEntry}

/-- An entry above the snapshot of `own` and below `n` writes a word that `own` writes. -/
def Clash (s : State ι) (own : LogEntry) (n : ℕ) : Prop :=
  ∃ t e, s.log t = some e ∧ own.snap < (t : Ts) ∧ t < n ∧ SharesWord own.ws e.ws

/-- What the abort flag of a thread's entry says at each program counter. -/
def Verdict (own : LogEntry) : Pc → Prop
  | .write _ _ _ => own.aborted = false
  | .lookup n => tsAdd own.snap 2 ≤ n
  | .visit _ c => own.snap ≠ invalidTs ∨ c = 0
  | .compare _ _ | .visited _ _ | .follow _ _ | .peek _ _ => own.snap ≠ invalidTs
  | .abort _ => own.snap = invalidTs ∨ own.aborted = true
  | .fill _ | .release _ => own.snap ≠ invalidTs ∨ own.aborted = true
  | _ => True

/-- **Who aborts has a reason**, and who has no snapshot aborts. -/
structure Judged (s : State ι) : Prop where
  deleted : s.deletedTs ≤ s.masterTs
  kept : ∀ i, ∀ x : ℕ, (s.threads i).ts = (x : Ts) → s.deletedTs ≤ x + 1
  clash : ∀ t e, s.log t = some e → e.aborted = true → e.snap = invalidTs ∨ Clash s e t
  verdict : ∀ i n own, (s.pc i).owned = some n → s.log n = some own → Verdict own (s.pc i)

/-- What validation is about is the same in both entries. -/
structure SameVerdict (e e' : LogEntry) : Prop where
  ws : e'.ws = e.ws
  snap : e'.snap = e.snap
  aborted : e'.aborted = e.aborted

theorem Verdict.congr {p : Pc} (h : Verdict own p) (hs : SameVerdict own own') :
    Verdict own' p := by
  cases p <;> simp only [Verdict, hs.snap, hs.aborted] at h ⊢ <;> exact h

variable [DecidableEq ι]

/-- **What a turn does to an entry**: its owner stores to it, or it is new, or nothing that
validation is about. -/
theorem Turn.entry (hc : Ctl s) (ht : Turn s s') (he' : s'.log t = some own') :
    (∃ own, s.log t = some own ∧ SameVerdict own own') ∨
      (∃ i own, s.log t = some own ∧ Stores s t own (s.pc i) (s'.pc i) own') ∨
      t = s.top + 1 ∧ own'.aborted = false ∧ own'.ws = [] := by
  have hsame : s'.log = s.log → ∃ own, s.log t = some own ∧ SameVerdict own own' := fun hlog =>
    ⟨own', hlog ▸ he', rfl, rfl, rfl⟩
  cases ht with
  | @store i n own own₁ p hown hs =>
    rw [State.goto_log] at he'
    by_cases htn : t = n
    · subst htn
      rw [State.setEntry_log_self] at he'
      obtain rfl := Option.some.inj he'
      refine .inr (.inl ⟨i, own, (State.deref_eq_some.1 hown).1, ?_⟩)
      rwa [State.goto_pc_self]
    · rw [s.setEntry_log_of_ne own₁ htn] at he'
      exact .inl ⟨own', he', rfl, rfl, rfl⟩
  | @create i ws hpc =>
    have htop : s.commitStartedTs = s.top :=
      hc.started_eq (i := i) (by rw [hpc]; rfl) (by rw [hpc]; rfl)
    rw [State.goto_log, createLogEntry_log, htop] at he'
    split_ifs at he' with hnew
    · obtain rfl := Option.some.inj he'
      exact .inr (.inr ⟨hnew, rfl, rfl⟩)
    · rw [State.linkLatest] at he'
      split_ifs at he'
      · obtain ⟨own, hown, rfl⟩ := Option.map_eq_some_iff.1 he'
        exact .inl ⟨own, hown, rfl, rfl, rfl⟩
      · exact .inl ⟨own', he', rfl, rfl, rfl⟩
  | delete stop _ =>
    obtain ⟨own, hown, rfl⟩ := Option.map_eq_some_iff.1 he'
    refine .inl ⟨own, hown, ?_⟩
    split_ifs <;> exact ⟨rfl, rfl, rfl⟩
  | _ => exact .inl (hsame rfl)

/-- An entry stays, and keeps what is written in it once it is out of the critical section. -/
theorem Turn.keeps (hc : Ctl s) (ht : Turn s s') (he : s.log t = some e)
    (hout : ∀ i, (s.pc i).inLock = true → (s.pc i).owned ≠ some t) :
    ∃ e', s'.log t = some e' ∧ e'.ws = e.ws ∧ e'.snap = e.snap := by
  have halloc := (hc.alloc t).1 (by rw [he]; rfl)
  have hle := ht.top_le hc
  obtain ⟨e', he'⟩ := Option.isSome_iff_exists.1 ((hc.turn ht).alloc t |>.2 ⟨halloc.1, by omega⟩)
  refine ⟨e', he', ?_⟩
  rcases ht.entry hc he' with ⟨own, hown, hs⟩ | ⟨i, own, hown, hs⟩ | ⟨hnew, -⟩
  · obtain rfl := Option.some.inj (hown.symm.trans he)
    exact ⟨hs.ws, hs.snap⟩
  · obtain rfl := Option.some.inj (hown.symm.trans he)
    rcases hs.kind.2.2.2 with hlock | ⟨-, hws, -⟩
    · exact absurd hs.ctl.2.2.1 (hout i hlock)
    · exact ⟨hws, hs.kind.1⟩
  · omega

/-- A reason stays a reason. -/
theorem Clash.turn (hc : Ctl s) (ht : Turn s s') (h : Clash s own n) (hn : n ≤ s.top)
    (hws : own'.ws = own.ws) (hsnap : own'.snap = own.snap) : Clash s' own' n := by
  obtain ⟨t, e, he, hlt, htn, hshare⟩ := h
  obtain ⟨e', he', hws', -⟩ := ht.keeps hc he fun i hlock howned => by
    have heq := hc.writing i t hlock howned
    omega
  exact ⟨t, e', he', hsnap ▸ hlt, htn, by rwa [hws, hws']⟩

omit [DecidableEq ι] in
theorem Stores.ne {p p' : Pc} (h : Stores s n own p p' own') : p' ≠ p := by
  cases h <;> simp

/-- Where a move leads, with what the entry of the thread says. -/
theorem Moves.verdict (hc : Ctl s) (h : Judged s) {p : Pc} (hm : Moves s i (s.pc i) p)
    (hseen : Seen s (s.goto i p) i) (howned : p.owned = some n) (hown : s.log n = some own)
    (hsnap : own.snap = (s.threads i).ts) : Verdict own p := by
  obtain ⟨-, howns, -⟩ := hm.ctl
  have hold := h.verdict i n own (howns n howned) hown
  have hpos := ((hc.alloc n).1 (by rw [hown]; rfl)).1
  have hsome : ∀ {c : ℕ} {e : LogEntry}, s.log c = some e → c ≠ 0 := fun {c e} he hzero => by
    have hc0 := (hc.alloc c).1 (by rw [he]; rfl)
    omega
  have hkept := h.kept i
  obtain ⟨hvisit, -, hvisited⟩ := hseen
  rw [State.goto_pc_self] at hvisit hvisited
  generalize s.pc i = q at hm hold hvisit hvisited
  cases hm with
  | concurrent hle =>
    obtain rfl := Option.some.inj howned
    rwa [← hsnap] at hle
  | alone hlt =>
    obtain rfl := Option.some.inj howned
    refine .inl fun htop => ?_
    rw [← hsnap, htop] at hlt
    exact absurd hlt (Nat.not_lt.2 hpos)
  | giveUp hgive =>
    obtain rfl := Option.some.inj howned
    rw [← hsnap] at hgive
    refine .inl (not_not.1 fun hne => ?_)
    obtain ⟨x, hcoe⟩ := WithTop.ne_top_iff_exists.1 hne
    have hx : own.snap = (x : Ts) := hcoe.symm
    have hdel := hkept x (hsnap ▸ hx)
    rw [Verdict, hx, tsAdd_coe] at hold
    rw [hx, tsAdd_coe] at hgive
    omega
  | lookup hle =>
    refine or_iff_not_imp_left.2 fun htop => ?_
    rw [← hsnap, not_not.1 htop]
    rfl
  | skip he _ => exact hold.resolve_right (hsome (State.deref_eq_some.1 he).1)
  | look =>
    obtain ⟨e, he⟩ := hvisit _ _ rfl rfl
    exact hold.resolve_right (hsome he)
  | conflict =>
    obtain rfl := Option.some.inj howned
    obtain ⟨own', hown', hab⟩ := hvisited _ _ rfl rfl
    obtain rfl := Option.some.inj (hown'.symm.trans hown)
    exact .inr hab
  | pass | more | follow => exact hold
  | last | unlinked | past | peek => exact .inl hold
  | begin | interrupt | report | fault => cases howned

omit [DecidableEq ι] in
/-- A store of the owner, with what its entry says. -/
theorem Stores.verdict {p p' : Pc} (hs : Stores s n own p p' own') (h : Verdict own p) :
    Verdict own' p' := by
  cases hs with
  | clear => rfl
  | abort => exact .inr rfl
  | _ => exact h

/-- Deletion stays below `master_ts`. -/
theorem Judged.deleted_turn (hc : Ctl s) (h : Judged s) (ht : Turn s s') :
    s'.deletedTs ≤ s'.masterTs := by
  cases ht with
  | @release i n hpc hm =>
    have hlt := (hc.owned i n (by rw [hpc]; rfl)).1
    exact h.deleted.trans hlt.le
  | delete stop hk => exact hk.1
  | _ => exact h.deleted

/-- It stays below the entries that a thread has yet to apply. -/
theorem Judged.kept_turn (h : Judged s) (ht : Turn s s') {x : ℕ}
    (hx : (s'.threads i).ts = (x : Ts)) : s'.deletedTs ≤ x + 1 := by
  cases ht with
  | snapshot j ts _ hts =>
    by_cases hij : i = j
    · subst hij
      simp only [Function.update_self] at hx
      rcases hts with rfl | rfl
      · exact absurd hx.symm WithTop.coe_ne_top
      · obtain rfl : s.masterTs = x := WithTop.coe_inj.1 hx
        exact h.deleted.trans (Nat.le_succ _)
    · simp only [Function.update_of_ne hij] at hx
      exact h.kept i x hx
  | delete stop hk => exact hk.2 i x hx
  | _ =>
    simp only [State.goto_ts] at hx
    exact h.kept i x hx

/-- An entry that is aborted has a reason. -/
theorem Judged.clash_turn (hc : Ctl s) (hf : Facts s) (h : Judged s) (ht : Turn s s')
    (hseen : ∀ i, Seen s s' i) {e' : LogEntry} (he' : s'.log t = some e')
    (hab : e'.aborted = true) : e'.snap = invalidTs ∨ Clash s' e' t := by
  rcases ht.entry hc he' with ⟨e, he, hs⟩ | ⟨i, own, hown, hs⟩ | ⟨-, hno, -⟩
  · have hle := ((hc.alloc t).1 (by rw [he]; rfl)).2
    rw [hs.snap]
    exact (h.clash t e he (hs.aborted ▸ hab)).imp_right fun hcl =>
      hcl.turn hc ht hle hs.ws hs.snap
  · obtain ⟨-, -, howned, -⟩ := hs.ctl
    have hle := ((hc.alloc t).1 (by rw [hown]; rfl)).2
    have hverdict := h.verdict i t own howned hown
    have hknows := hf.knows i t own howned hown
    have hclash := h.clash t own hown
    have hcompare := (hseen i).compare
    have hturn {e' : LogEntry} (hcl : Clash s own t) (hws : e'.ws = own.ws)
        (hsnap : e'.snap = own.snap) : Clash s' e' t := hcl.turn hc ht hle hws hsnap
    generalize s.pc i = p, s'.pc i = p' at hs hverdict hknows hcompare
    cases hs with
    | copy | stamp => exact absurd (hverdict.symm.trans hab) (by simp)
    | clear => cases hab
    | conflict c =>
      obtain ⟨own', e, hown', he, hseen'⟩ := hcompare t c _ rfl rfl he' rfl
      obtain rfl := Option.some.inj (hown'.symm.trans hown)
      rcases hseen' with hab' | hshare
      · exact (hclash hab').imp_right fun hcl => hturn hcl rfl rfl
      · refine hknows.1.above.imp_right fun habove => hturn ?_ rfl rfl
        exact ⟨c, e, he, habove, hknows.1.lt, hshare⟩
    | abort =>
      rcases hverdict with htop | hab'
      · exact .inl htop
      · exact (hclash hab').imp_right fun hcl => hturn hcl rfl rfl
    | fill => exact (hclash hab).imp_right fun hcl => hturn hcl rfl rfl
  · rw [hab] at hno
    cases hno

/-- A thread that does not move holds what it held. -/
theorem Judged.verdict_of_stays (hc : Ctl s) (h : Judged s) (ht : Turn s s')
    (hpc : s'.pc i = s.pc i) {own' : LogEntry} (howned : (s'.pc i).owned = some n)
    (hown' : s'.log n = some own') : Verdict own' (s'.pc i) := by
  rw [hpc] at howned ⊢
  rcases ht.entry hc hown' with ⟨own, hown, hs⟩ | ⟨j, own, hown, hs⟩ | ⟨hnew, -⟩
  · exact (h.verdict i n own howned hown).congr hs
  · obtain rfl := hc.owned_inj i j n howned hs.ctl.2.2.1
    exact absurd hpc hs.ne
  · have hle := (hc.owned i n howned).2
    omega

/-- What a thread holds of its own entry. -/
theorem Judged.verdict_turn (hc : Ctl s) (hf : Facts s) (h : Judged s) (ht : Turn s s')
    (hseen : ∀ i, Seen s s' i) {own' : LogEntry} (howned : (s'.pc i).owned = some n)
    (hown' : s'.log n = some own') : Verdict own' (s'.pc i) := by
  have hstays : s'.pc i = s.pc i → Verdict own' (s'.pc i) :=
    fun hpc => h.verdict_of_stays hc ht hpc howned hown'
  cases ht with
  | snapshot j ts hpc _ => exact hstays (State.snapshot_pc hpc ts i)
  | @move j p hm =>
    by_cases hij : i = j
    · subst hij
      rw [State.goto_pc_self] at howned ⊢
      exact hm.verdict hc h (hseen i) howned hown'
        (hf.snap i n own' (hm.ctl.2.1 n howned) hown')
    · exact hstays (s.goto_pc_of_ne p hij)
  | @store j m own own₁ p hown hs =>
    by_cases hij : i = j
    · subst hij
      rw [State.goto_pc_self] at howned ⊢
      obtain rfl := Option.some.inj (hs.ctl.2.1.symm.trans howned)
      rw [State.goto_log, State.setEntry_log_self] at hown'
      obtain rfl := Option.some.inj hown'
      exact hs.verdict (h.verdict i m own hs.ctl.2.2.1 (State.deref_eq_some.1 hown).1)
    · exact hstays ((s.setEntry m own₁).goto_pc_of_ne p hij)
  | @acquire j ws _ _ | @createFails j ws _ | @release j m _ _ =>
    by_cases hij : i = j
    · subst hij
      rw [State.goto_pc_self] at howned
      cases howned
    · exact hstays (State.goto_pc_of_ne _ _ hij)
  | @create j ws hpc =>
    by_cases hij : i = j
    · subst hij
      rw [State.goto_pc_self] at howned ⊢
      obtain rfl := Option.some.inj howned
      rw [State.goto_log, createLogEntry_log, if_pos rfl] at hown'
      obtain rfl := Option.some.inj hown'
      rfl
    · exact hstays (State.goto_pc_of_ne _ _ hij)
  | @started j ws m hpc =>
    by_cases hij : i = j
    · subst hij
      rw [State.goto_pc_self] at howned ⊢
      have hold := h.verdict i n own' (by rw [hpc]; exact howned) hown'
      rw [hpc] at hold
      exact hold
    · exact hstays (State.goto_pc_of_ne _ _ hij)
  | @unlock j ws m _ =>
    by_cases hij : i = j
    · subst hij
      rw [State.goto_pc_self]
      trivial
    · exact hstays (State.goto_pc_of_ne _ _ hij)
  | delete stop _ => exact hstays rfl

/-- **Every turn keeps the reasons.** -/
theorem Judged.turn (hc : Ctl s) (hf : Facts s) (h : Judged s) (ht : Turn s s')
    (hseen : ∀ i, Seen s s' i) : Judged s' where
  deleted := h.deleted_turn hc ht
  kept _ _ hx := h.kept_turn ht hx
  clash _ _ he hab := h.clash_turn hc hf ht hseen he hab
  verdict _ _ _ howned hown := h.verdict_turn hc hf ht hseen howned hown

omit [DecidableEq ι] in
/-- The start. -/
theorem init_judged (h : Init s) : Judged s := by
  obtain ⟨hm, -, -, hlog, -, hdel, hthr⟩ := h
  have hpc : ∀ i, s.pc i = .idle := fun i => by rw [State.pc, hthr]
  constructor <;> simp [hm, hlog, hdel, hpc, Pc.owned]

/-- **Every commit that aborts has a reason**, in every run. -/
theorem judged (h : (protocol ι).ReachableWith LogKept s) : Judged s :=
  h.invariant (fun _ hs => init_judged hs) fun _ _ _ hr hi hk hstep =>
    hi.turn (invariants hr).1 (invariants hr).2.2.1 (step_turn hstep hk) fun _ => step_seen hstep

end Judged

end Commit
end Sivfs
