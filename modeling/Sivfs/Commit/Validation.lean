/-
# What a thread knows of the log

`sivfs_validate` runs outside `commit_lock`, against entries whose own abort
flag may still be undecided.  It is sound because

* an entry is stamped and linked before the lock is given up, so that every
  entry below a thread's `next_ts` is there when the thread walks the log;
* the write-set of such an entry no longer changes, and its abort flag only
  ever goes from `false` to `true`: who skips an aborted entry skips it for
  good, and who compares with an undecided one is only too careful.

`Ctl` and `Links` are the first of these, and `Facts` is what a thread knows at each program
counter.
-/

import Sivfs.Commit.Control

namespace Sivfs
namespace Commit

/-! ### What is in the log, and what a thread knows of it -/

section Validation

variable {ι : Type*} {s s' : State ι}

/-- The log is linked and stamped up to the entry being written, and nothing is
freed that a thread may still ask for. -/
structure Links (s : State ι) : Prop where
  linked : ∀ t e, s.log t = some e → t < s.top → e.next = some (t + 1)
  stamped : ∀ t e, s.log t = some e →
    (∀ i, (s.pc i).inLock = true → (s.pc i).owned ≠ some t) → e.ts = (t : Ts)
  freed : ∀ t e, s.log t = some e → e.freed = true → t < s.masterTs
  kept : ∀ t e, s.log t = some e → e.freed = true →
    ∀ i, ∀ x : ℕ, (s.threads i).ts = (x : Ts) → t ≤ x

/-- Every entry between the snapshot of `own` and `c` is aborted or writes other
words than `own`. -/
def Clear (s : State ι) (own : LogEntry) (c : ℕ) : Prop :=
  ∀ t e, s.log t = some e → own.snap < (t : Ts) → t < c →
    e.aborted = true ∨ ¬SharesWord own.ws e.ws

/-- The validation of `own` with timestamp `n` may ask for entry `c`. -/
structure InRange (own : LogEntry) (n c : ℕ) : Prop where
  lt : c < n
  above : own.snap = ⊤ ∨ own.snap < (c : Ts)

/-- What a thread knows about its entry at each program counter. -/
def Knows (s : State ι) (own : LogEntry) : Pc → Prop
  | .write _ n .clear | .write _ n .unlock => own.ts = (n : Ts)
  | .visit n c | .compare n c | .peek n c => InRange own n c ∧ Clear s own c
  | .visited n c => InRange own n c ∧ (own.aborted = true ∨ Clear s own (c + 1))
  | .follow n c => InRange own n c ∧ c + 1 < n ∧ Clear s own (c + 1)
  | .fill n => own.aborted = true ∨ Clear s own n
  | _ => True

/-- What is known of entries in flight and of entries that are decided. -/
structure Facts (s : State ι) : Prop where
  snap : ∀ i n own, (s.pc i).owned = some n → s.log n = some own →
    own.snap = (s.threads i).ts
  unfilled : ∀ i n own, (s.pc i).owned = some n → s.pc i ≠ .release n → s.log n = some own →
    own.commitStatusFilledIn = false
  knows : ∀ i n own, (s.pc i).owned = some n → s.log n = some own → Knows s own (s.pc i)
  filled : ∀ t e, s.log t = some e → e.commitStatusFilledIn = true →
    e.aborted = true ∨ Clear s e t

/-- Below `m` no write-set changes and no abort flag is taken back. -/
def Calm (s s' : State ι) (m : ℕ) : Prop :=
  ∀ t e', s'.log t = some e' → t < m →
    ∃ e, s.log t = some e ∧ e'.ws = e.ws ∧ (e.aborted = true → e'.aborted = true)

/-- Entries that have been compared do not come to conflict. -/
theorem Clear.of_calm {own own' : LogEntry} {c m : ℕ} (h : Clear s own c) (hc : Calm s s' m)
    (hcm : c ≤ m) (hws : own'.ws = own.ws) (hsnap : own'.snap = own.snap) : Clear s' own' c := by
  intro t e' he' hlt htc
  obtain ⟨e, he, hews, hab⟩ := hc t e' he' (by omega)
  rw [hws, hews]
  exact (h t e he (hsnap ▸ hlt) htc).imp_left hab

/-- The range of a walk is between the snapshot and the entry. -/
theorem InRange.congr {own own' : LogEntry} {n c : ℕ} (h : InRange own n c)
    (hsnap : own'.snap = own.snap) : InRange own' n c :=
  ⟨h.lt, hsnap ▸ h.above⟩

/-- **What a thread knows** stays true while the entries behind its own are calm. -/
theorem Knows.of_calm {own own' : LogEntry} {p : Pc} {n : ℕ} (h : Knows s own p)
    (hp : p.owned = some n) (hc : Calm s s' n) (hws : own'.ws = own.ws)
    (hsnap : own'.snap = own.snap) (hts : own'.ts = own.ts)
    (hab : own.aborted = true → own'.aborted = true) : Knows s' own' p := by
  cases p with
  | write ws m stage =>
    cases stage with
    | clear | unlock => exact hts.trans h
    | _ => trivial
  | visit m c | compare m c | peek m c =>
    obtain rfl := Option.some.inj hp
    exact ⟨h.1.congr hsnap, h.2.of_calm hc h.1.lt.le hws hsnap⟩
  | visited m c =>
    obtain rfl := Option.some.inj hp
    exact ⟨h.1.congr hsnap, h.2.imp hab fun h' => h'.of_calm hc h.1.lt hws hsnap⟩
  | follow m c =>
    obtain rfl := Option.some.inj hp
    exact ⟨h.1.congr hsnap, h.2.1, h.2.2.of_calm hc h.2.1.le hws hsnap⟩
  | fill m =>
    obtain rfl := Option.some.inj hp
    exact h.imp hab fun h' => h'.of_calm hc le_rfl hws hsnap
  | _ => trivial

/-- The fields of an entry that validation is about. -/
structure SameEntry (e e' : LogEntry) : Prop where
  ts : e'.ts = e.ts
  ws : e'.ws = e.ws
  aborted : e'.aborted = e.aborted
  filled : e'.commitStatusFilledIn = e.commitStatusFilledIn
  snap : e'.snap = e.snap

/-- An entry that is not touched. -/
theorem SameEntry.refl (e : LogEntry) : SameEntry e e := ⟨rfl, rfl, rfl, rfl, rfl⟩

/-- A turn that changes no entry validation is about keeps `Facts`, if it does
so for the threads that move. -/
theorem Facts.of_same (hc : Ctl s) (hf : Facts s)
    (hlog : ∀ t e', s'.log t = some e' → (∃ e, s.log t = some e ∧ SameEntry e e') ∨
      (s.top < t ∧ e'.commitStatusFilledIn = false))
    (hthr : ∀ i n own', (s'.pc i).owned = some n → s'.log n = some own' →
      (s'.pc i = s.pc i ∧ (s'.threads i).ts = (s.threads i).ts) ∨
      (own'.snap = (s'.threads i).ts ∧
        (s'.pc i ≠ .release n → own'.commitStatusFilledIn = false) ∧
        Knows s' own' (s'.pc i))) : Facts s' := by
  have hcalm : ∀ m, m ≤ s.top → Calm s s' m := by
    intro m hm t e' he' htm
    rcases hlog t e' he' with ⟨e, he, hs⟩ | ⟨ht, -⟩
    · exact ⟨e, he, hs.ws, fun h => hs.aborted.trans h⟩
    · omega
  -- a thread that has not moved owns an entry of the old log
  have hold : ∀ i n own', (s.pc i).owned = some n → s'.log n = some own' →
      n ≤ s.top ∧ ∃ own, s.log n = some own ∧ SameEntry own own' := by
    intro i n own' hi hn
    have hle := (hc.owned i n hi).2
    rcases hlog n own' hn with h | ⟨h, -⟩
    · exact ⟨hle, h⟩
    · omega
  constructor
  · intro i n own' hi hn
    rcases hthr i n own' hi hn with ⟨hp, hts⟩ | ⟨h, -, -⟩
    · rw [hp] at hi
      obtain ⟨-, own, hown, hs⟩ := hold i n own' hi hn
      rw [hs.snap, hts]
      exact hf.snap i n own hi hown
    · exact h
  · intro i n own' hi hne hn
    rcases hthr i n own' hi hn with ⟨hp, hts⟩ | ⟨-, h, -⟩
    · rw [hp] at hi hne
      obtain ⟨-, own, hown, hs⟩ := hold i n own' hi hn
      rw [hs.filled]
      exact hf.unfilled i n own hi hne hown
    · exact h hne
  · intro i n own' hi hn
    rcases hthr i n own' hi hn with ⟨hp, hts⟩ | ⟨-, -, h⟩
    · rw [hp] at hi ⊢
      obtain ⟨hle, own, hown, hs⟩ := hold i n own' hi hn
      exact (hf.knows i n own hi hown).of_calm hi (hcalm n hle) hs.ws hs.snap hs.ts
        fun h => hs.aborted.trans h
    · exact h
  · intro t e' he' hfill
    rcases hlog t e' he' with ⟨e, he, hs⟩ | ⟨-, h⟩
    · have hle := ((hc.alloc t).1 (by simp [he])).2
      rw [hs.aborted]
      exact (hf.filled t e he (hs.filled ▸ hfill)).imp_right fun h =>
        h.of_calm (hcalm t hle) le_rfl hs.ws hs.snap
    · rw [h] at hfill
      simp at hfill

/-- What is in flight can be read. -/
theorem Links.own_deref (hc : Ctl s) (hl : Links s) {i : ι} {n : ℕ}
    (hi : (s.pc i).owned = some n) : ∃ own, s.deref n = some own := by
  obtain ⟨hm, hle⟩ := hc.owned i n hi
  obtain ⟨own, hown⟩ := Option.isSome_iff_exists.1 ((hc.alloc n).2 ⟨by omega, hle⟩)
  refine ⟨own, State.deref_eq_some.2 ⟨hown, ?_⟩⟩
  by_contra hfree
  have := hl.freed n own hown (by simpa using hfree)
  omega

/-- What lies above a thread's snapshot can be read. -/
theorem Links.deref_of_snapshot (hc : Ctl s) (hl : Links s) {i : ι} {x t : ℕ}
    (hx : (s.threads i).ts = (x : Ts)) (hxt : x < t) (ht : t ≤ s.top) :
    ∃ e, s.deref t = some e := by
  obtain ⟨e, he⟩ := Option.isSome_iff_exists.1 ((hc.alloc t).2 ⟨by omega, ht⟩)
  refine ⟨e, State.deref_eq_some.2 ⟨he, ?_⟩⟩
  by_contra hfree
  have := hl.kept t e he (by simpa using hfree) i x hx
  omega

/-- An entry below one that is in flight is stamped. -/
theorem Links.stamped_of_lt (hc : Ctl s) (hl : Links s) {t n : ℕ} {e : LogEntry}
    (he : s.log t = some e) (htn : t < n) (hn : n ≤ s.top) : e.ts = (t : Ts) := by
  refine hl.stamped t e he fun i hi ho => ?_
  have := hc.writing i t hi ho
  omega

/-- A thread asks first for the entry behind its snapshot. -/
theorem Clear.start {own : LogEntry} {ts : Ts} {c : ℕ} (hsnap : own.snap = ts)
    (hc : c ≤ tsAdd ts 1 ∨ ts = ⊤) : Clear s own c := by
  intro t e _ hlt htc
  rw [hsnap] at hlt
  induction ts using WithTop.recTopCoe with
  | top => exact absurd hlt not_top_lt
  | coe x =>
    have hxt : x < t := by simpa using hlt
    rcases hc with hc | hc
    · simp at hc
      omega
    · exact absurd hc WithTop.coe_ne_top

/-- One entry further. -/
theorem Clear.succ {own e : LogEntry} {c : ℕ} (h : Clear s own c) (he : s.log c = some e)
    (hok : e.aborted = true ∨ ¬SharesWord own.ws e.ws) : Clear s own (c + 1) := by
  intro t e' he' hlt htc
  by_cases htc' : t = c
  · subst htc'
    rw [he] at he'
    obtain rfl := Option.some.inj he'
    exact hok
  · exact h t e' he' hlt (by omega)

/-- What a thread knows after a turn that stores to nothing. -/
theorem Moves.knows (hc : Ctl s) (hl : Links s) (hf : Facts s) {i : ι} {p' : Pc} {n : ℕ}
    {own : LogEntry} (h : Moves s i (s.pc i) p') (ho : p'.owned = some n)
    (hown : s.log n = some own) : Knows s own p' := by
  have hi : (s.pc i).owned = some n := h.ctl.2.1 n ho
  have hknows := hf.knows i n own hi hown
  have hsnap := hf.snap i n own hi hown
  obtain ⟨hm, hn⟩ := hc.owned i n hi
  generalize hp : s.pc i = p at h hi hknows
  cases h with
  | begin ws | interrupt ws | report | fault => simp [Pc.owned] at ho
  | concurrent | giveUp | conflict => trivial
  | @alone m hlt =>
    obtain rfl := Option.some.inj ho
    refine .inr (.start hsnap ?_)
    rcases hts : (s.threads i).ts with _ | x
    · exact .inr rfl
    · rw [hts] at hlt
      change m < x + 2 at hlt
      exact .inl (show m ≤ x + 1 by omega)
  | @lookup m hle =>
    obtain rfl := Option.some.inj ho
    refine ⟨⟨by omega, ?_⟩, .start hsnap (.inl le_rfl)⟩
    rw [hsnap]
    rcases (s.threads i).ts with _ | x
    · exact .inl rfl
    · exact .inr (WithTop.coe_lt_coe.2 (Nat.lt_succ_self x))
  | skip he hab =>
    obtain rfl := Option.some.inj ho
    exact ⟨hknows.1, .inr (hknows.2.succ (State.deref_eq_some.1 he).1 (.inl hab))⟩
  | look =>
    obtain rfl := Option.some.inj ho
    exact hknows
  | @pass m c own' e hown' he hconf =>
    obtain rfl := Option.some.inj ho
    obtain rfl : own' = own := by
      rw [(State.deref_eq_some.1 hown').1] at hown
      exact Option.some.inj hown
    refine ⟨hknows.1, .inr (hknows.2.succ (State.deref_eq_some.1 he).1 (.inr ?_))⟩
    rw [← wsConflicts_iff, hconf]
    simp
  | @last m c own' e hown' hab he hts =>
    obtain rfl := Option.some.inj ho
    obtain rfl : own' = own := by
      rw [(State.deref_eq_some.1 hown').1] at hown
      exact Option.some.inj hown
    -- `clog->ts == ts_stop`, and entries are stamped with their key
    have hcn : c = m - 1 := by
      rw [hl.stamped_of_lt hc (State.deref_eq_some.1 he).1 hknows.1.lt hn] at hts
      exact_mod_cast hts
    have hclear := hknows.2.resolve_left (by simp [hab])
    rw [show c + 1 = m by omega] at hclear
    exact .inr hclear
  | @more m c own' e hown' hab he hts =>
    obtain rfl := Option.some.inj ho
    obtain rfl : own' = own := by
      rw [(State.deref_eq_some.1 hown').1] at hown
      exact Option.some.inj hown
    have hcn : c ≠ m - 1 := by
      rintro rfl
      exact hts (hl.stamped_of_lt hc (State.deref_eq_some.1 he).1 hknows.1.lt hn)
    have hlt := hknows.1.lt
    exact ⟨hknows.1, by omega, hknows.2.resolve_left (by simp [hab])⟩
  | @unlinked m c e he hnext =>
    obtain rfl := Option.some.inj ho
    have hlt := hknows.2.1
    rw [hl.linked c e (State.deref_eq_some.1 he).1 (by omega)] at hnext
    simp at hnext
  | @follow m c d e he hnext =>
    obtain rfl := Option.some.inj ho
    have hlt := hknows.2.1
    rw [hl.linked c e (State.deref_eq_some.1 he).1 (by omega)] at hnext
    obtain rfl := Option.some.inj hnext
    refine ⟨⟨hlt, hknows.1.above.imp_right fun h => h.trans ?_⟩, hknows.2.2⟩
    exact WithTop.coe_lt_coe.2 (Nat.lt_succ_self c)
  | @past m c e he hpast =>
    obtain rfl := Option.some.inj ho
    rw [hl.stamped_of_lt hc (State.deref_eq_some.1 he).1 hknows.1.lt hn] at hpast
    have hlt := hknows.1.lt
    have : m - 1 < c := by exact_mod_cast hpast
    omega
  | peek =>
    obtain rfl := Option.some.inj ho
    exact hknows

/-- A store to the entry being written, or one that keeps its write-set and
does not take an abort back. -/
theorem Stores.kind {n : ℕ} {own own' : LogEntry} {p p' : Pc} (h : Stores s n own p p' own') :
    own'.snap = own.snap ∧ own'.next = own.next ∧ own'.freed = own.freed ∧
      (p.inLock = true ∨ p.inLock = false ∧ own'.ws = own.ws ∧ own'.ts = own.ts ∧
        (own.aborted = true → own'.aborted = true)) := by
  cases h with
  | copy | stamp | clear => exact ⟨rfl, rfl, rfl, .inl rfl⟩
  | conflict | abort => exact ⟨rfl, rfl, rfl, .inr ⟨rfl, rfl, rfl, fun _ => rfl⟩⟩
  | fill => exact ⟨rfl, rfl, rfl, .inr ⟨rfl, rfl, rfl, id⟩⟩

/-- A turn that leaves the log alone keeps `Links`, if no entry leaves the
critical section unstamped and no thread takes an old snapshot. -/
theorem Links.of_log_eq (hl : Links s) (hlog : s'.log = s.log) (htop : s'.latest = s.latest)
    (hm : s.masterTs ≤ s'.masterTs)
    (hstamp : ∀ i n own, (s.pc i).inLock = true → (s.pc i).owned = some n → s.log n = some own →
      ((s'.pc i).inLock = true ∧ (s'.pc i).owned = some n) ∨ own.ts = (n : Ts))
    (hts : ∀ i, ∀ x : ℕ, (s'.threads i).ts = (x : Ts) →
      (s.threads i).ts = (x : Ts) ∨ s.masterTs ≤ x) : Links s' := by
  constructor
  · rw [hlog, State.top, htop]
    exact hl.linked
  · intro t e he hno
    rw [hlog] at he
    by_contra hts
    refine hts (hl.stamped t e he fun i hi ho => ?_)
    rcases hstamp i t e hi ho he with ⟨hi', ho'⟩ | h
    · exact hno i hi' ho'
    · exact hts h
  · rw [hlog]
    exact fun t e he hfree => (hl.freed t e he hfree).trans_le hm
  · intro t e he hfree i x hx
    rw [hlog] at he
    rcases hts i x hx with h | h
    · exact hl.kept t e he hfree i x h
    · exact ((hl.freed t e he hfree).trans_le h).le

/-- Deleted entries are before everything that anyone will ask for. -/
theorem Links.delete (hl : Links s) {stop : ℕ} (hk : LogKept s (.deleteLog stop)) :
    Links (deleteLog s stop) := by
  have hlog : ∀ t e', (deleteLog s stop).log t = some e' → ∃ e, s.log t = some e ∧
      e'.next = e.next ∧ e'.ts = e.ts ∧ (e'.freed = true → e.freed = true ∨ t < stop) := by
    intro t e' he'
    obtain ⟨e, he, rfl⟩ := Option.map_eq_some_iff.1 he'
    refine ⟨e, he, ?_⟩
    split_ifs with h
    · exact ⟨rfl, rfl, fun _ => .inr h⟩
    · exact ⟨rfl, rfl, .inl⟩
  constructor
  · intro t e' he' ht
    obtain ⟨e, he, hn, -⟩ := hlog t e' he'
    rw [hn]
    exact hl.linked t e he ht
  · intro t e' he' hno
    obtain ⟨e, he, -, hts, -⟩ := hlog t e' he'
    rw [hts]
    exact hl.stamped t e he hno
  · intro t e' he' hfree
    obtain ⟨e, he, -, -, hf⟩ := hlog t e' he'
    rcases hf hfree with h | h
    · exact hl.freed t e he h
    · exact h.trans_le hk.1
  · intro t e' he' hfree i x hx
    obtain ⟨e, he, -, -, hf⟩ := hlog t e' he'
    rcases hf hfree with h | h
    · exact hl.kept t e he h i x hx
    · have := hk.2 i x hx
      omega

/-- Every entry a thread with a snapshot is about to read can be read. -/
theorem Links.deref_of_reads (hc : Ctl s) (hl : Links s) (hf : Facts s) {i : ι} {x t : ℕ}
    (hx : (s.threads i).ts = (x : Ts)) (hrep : ∀ n, s.pc i = .report n → x < n ∧ n ≤ s.top)
    (ht : t ∈ (s.pc i).reads) : ∃ e, s.deref t = some e := by
  have hown : (s.pc i).owned = some t → ∃ e, s.deref t = some e := fun h => hl.own_deref hc h
  have hrange : ∀ n, (s.pc i).owned = some n → (∀ own, Knows s own (s.pc i) → InRange own n t) →
      ∃ e, s.deref t = some e := by
    intro n hn hin
    obtain ⟨own, hd⟩ := hl.own_deref hc hn
    have hlog := (State.deref_eq_some.1 hd).1
    obtain ⟨hlt, habove⟩ := hin own (hf.knows i n own hn hlog)
    rw [hf.snap i n own hn hlog, hx] at habove
    have hxt : x < t := by
      rcases habove with h | h
      · exact absurd h WithTop.coe_ne_top
      · exact_mod_cast h
    exact hl.deref_of_snapshot hc hx hxt (hlt.le.trans (hc.owned i n hn).2)
  generalize s.pc i = p at ht hown hrange hrep
  cases p with
  | write ws n stage =>
    have : t = n := by cases stage <;> simp_all [Pc.reads]
    exact hown (by rw [this]; rfl)
  | abort n | fill n =>
    obtain rfl : t = n := by simpa [Pc.reads] using ht
    exact hown rfl
  | report n =>
    obtain rfl : t = n := by simpa [Pc.reads] using ht
    obtain ⟨hlt, hle⟩ := hrep t rfl
    exact hl.deref_of_snapshot hc hx hlt hle
  | visit n c | follow n c | peek n c =>
    obtain rfl : t = c := by simpa [Pc.reads] using ht
    exact hrange n rfl fun own h => h.1
  | compare n c | visited n c =>
    rcases (by simpa [Pc.reads] using ht : t = n ∨ t = c) with rfl | rfl
    · exact hown rfl
    · exact hrange n rfl fun own h => h.1
  | _ => simp [Pc.reads] at ht

end Validation

end Commit
end Sivfs
