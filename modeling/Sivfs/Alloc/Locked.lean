/-
# Chunks of unfinished transactions

A chunk that a transaction allocated is on `allocated_chunks` of its thread until the hook
of the transaction takes it off.  Nothing else says whose it is: `sivfs_free_block` looks
at the flags and the timestamp of the chunk only, so a thread may free, and its hook
release, what another one has allocated and not committed.

`uncommitted_locked` says that the chunks on the list of a thread are left alone in every
run in which a thread frees only chunks that are on no list or on its own.
-/

import Sivfs.Alloc.Machine

namespace Sivfs
namespace Alloc

variable {ι : Type*} [DecidableEq ι]

/-- The chunks of a list. -/
def Ainfo.list (a : Ainfo ι) (g : Head ι) : Option (List ℕ) := a.links.toList g (a.nextChunk + 1)

theorem Rep.list {a : Ainfo ι} {cs : List ℕ} {w : ℕ} {R : Head ι → List ℕ} (h : Rep a cs w R)
    (g : Head ι) : a.list g = some (R g) := by
  refine h.lists.toList (Nat.lt_succ_of_le (length_le h.tiled (h.lists.nodup g) fun c hc => ?_))
  cases g with
  | bestfit => exact ((h.bestfit c).1 hc).1
  | allocated t => exact List.mem_append_left _ (h.held t c hc).1

/-- Requests of at least a page, served from offsets that `size_t` holds. -/
def Sized (s : State ι) : Act ι → Prop
  | .alloc t size _ => pageSize ≤ size ∧ FitsAlloc s.ainfo (s.thread t).ts size
  | _ => True

instance (s : State ι) : ∀ act, Decidable (Sized s act)
  | .alloc t size _ => inferInstanceAs (Decidable (pageSize ≤ size ∧
      FitsAlloc s.ainfo (s.thread t).ts size))
  | .free _ _ | .commit _ _ | .abort _ | .hook _ | .update _ _ => inferInstanceAs (Decidable True)

/-- A thread frees only chunks that are on no list or on its own. -/
def Unshared (s : State ι) : Act ι → Prop
  | .free t offset => ∀ c ∈ (s.ainfo.pg offset).startsChunk, (s.ainfo.chunk c).start = offset →
      s.ainfo.links.next (.item c) = none ∨ c ∈ (s.ainfo.list (.allocated t)).getD []
  | _ => True

instance (s : State ι) : ∀ act, Decidable (Unshared s act)
  | .free t offset => inferInstanceAs (Decidable (∀ c ∈ (s.ainfo.pg offset).startsChunk,
      (s.ainfo.chunk c).start = offset →
      s.ainfo.links.next (.item c) = none ∨ c ∈ (s.ainfo.list (.allocated t)).getD []))
  | .alloc _ _ _ | .commit _ _ | .abort _ | .hook _ | .update _ _ =>
    inferInstanceAs (Decidable True)

/-- A step of a hook takes chunks off the lists of chunks to free. -/
theorem toFree_of_hook {s s' : State ι} {t u : ι} (hstep : step s (.hook t) = some s') :
    (s'.thread u).allocChunksToFree ⊆ (s.thread u).allocChunksToFree := by
  have hsub : ∀ (th : Thread), th.allocChunksToFree ⊆ (s.thread t).allocChunksToFree →
      ((s.setThread t th).thread u).allocChunksToFree ⊆ (s.thread u).allocChunksToFree := by
    intro th hth
    by_cases hu : u = t
    · subst hu
      simpa [State.setThread] using hth
    · simp [State.setThread, hu]
  cases hp : (s.thread t).phase with
  | active => simp [step, hp] at hstep
  | clearing ts =>
    simp only [step, hp, clearStep] at hstep
    split at hstep
    · obtain ⟨L, -, rfl⟩ := Option.map_eq_some_iff.1 hstep
      exact List.Subset.refl _
    · split_ifs at hstep
      obtain rfl := Option.some.inj hstep
      exact hsub _ (List.Subset.refl _)
    · simp at hstep
  | releasing ts =>
    simp only [step, hp, releaseStep] at hstep
    split at hstep
    case h_1 =>
      obtain rfl := Option.some.inj hstep
      exact hsub _ (List.Subset.refl _)
    case h_2 c rest hlist =>
      obtain ⟨a, -, rfl⟩ := Option.map_eq_some_iff.1 hstep
      exact hsub _ (by simp [hlist])
  | resetting =>
    simp only [step, hp, resetStep] at hstep
    split at hstep
    case h_1 =>
      obtain rfl := Option.some.inj hstep
      exact hsub _ (List.Subset.refl _)
    case h_2 c rest hlist =>
      obtain rfl := Option.some.inj hstep
      exact hsub _ (by simp [hlist])
  | unrolling =>
    simp only [step, hp, unrollStep] at hstep
    split at hstep
    · obtain ⟨L, -, hmap⟩ := Option.bind_eq_some_iff.1 hstep
      obtain ⟨a, -, rfl⟩ := Option.map_eq_some_iff.1 hmap
      exact List.Subset.refl _
    · split_ifs at hstep
      obtain rfl := Option.some.inj hstep
      exact hsub _ (List.Subset.refl _)
    · simp at hstep

/-- Only a free puts a chunk on a list of chunks to free, its own. -/
theorem toFree_of_step {s s' : State ι} {act : Act ι} {u : ι} {c : ℕ}
    (hstep : step s act = some s') (hc : c ∈ (s'.thread u).allocChunksToFree) :
    c ∈ (s.thread u).allocChunksToFree ∨ ∃ offset a, act = .free u offset ∧
      freeBlock (s.thread u).ts offset s.ainfo = some (a, some c) := by
  cases act with
  | hook t => exact .inl (toFree_of_hook hstep hc)
  | alloc t size mem =>
    rw [step] at hstep
    split_ifs at hstep
    obtain ⟨⟨a, r⟩, -, hs⟩ := Option.map_eq_some_iff.1 hstep
    cases r with
    | error e => exact .inl (by simpa [← hs] using hc)
    | ok d => exact .inl (by simpa [← hs] using hc)
  | free t offset =>
    rw [step] at hstep
    split_ifs at hstep
    obtain ⟨⟨a, r⟩, hfree, hs⟩ := Option.map_eq_some_iff.1 hstep
    by_cases hu : u = t
    · subst hu
      cases r with
      | none => exact .inl (by simpa [← hs, State.setThread] using hc)
      | some d =>
        have hc' : c = d ∨ c ∈ (s.thread u).allocChunksToFree := by
          simpa [← hs, State.setThread] using hc
        exact hc'.symm.imp_right fun (e : c = d) => ⟨offset, a, rfl, e ▸ hfree⟩
    · cases r with
      | none => exact .inl (by simpa [← hs, State.setThread, hu] using hc)
      | some d => exact .inl (by simpa [← hs, State.setThread, hu] using hc)
  | commit t writes =>
    by_cases hact : (s.thread t).phase = .active ∧ (s.thread t).shouldAbort = false
    case neg => simp [step, hact] at hstep
    rw [step, if_pos hact] at hstep
    obtain rfl := Option.some.inj hstep
    by_cases hu : u = t
    · subst hu
      exact .inl (by simpa [State.setPhase, State.setThread] using hc)
    · exact .inl (by simpa [State.setPhase, State.setThread, hu] using hc)
  | abort t =>
    rw [step] at hstep
    split_ifs at hstep
    obtain rfl := Option.some.inj hstep
    by_cases hu : u = t
    · subst hu
      exact .inl (by simpa [State.setThread] using hc)
    · exact .inl (by simpa [State.setThread, hu] using hc)
  | update t ts =>
    rw [step] at hstep
    split_ifs at hstep
    obtain rfl := Option.some.inj hstep
    by_cases hu : u = t
    · subst hu
      exact .inl (by simpa [State.setThread] using hc)
    · exact .inl (by simpa [State.setThread, hu] using hc)

/-! ### Lists of chunks and of frees -/

omit [DecidableEq ι] in
theorem State.mem_of_toRelease {s : State ι} {t : ι} {c : ℕ} (hc : c ∈ s.toRelease t) :
    ∃ ts, (s.thread t).phase = .releasing ts ∧ c ∈ (s.thread t).allocChunksToFree := by
  rw [State.toRelease] at hc
  split at hc
  case h_1 ts hp => exact ⟨ts, hp, List.mem_of_mem_head? hc⟩
  case h_2 => simp at hc

/-- A chunk on the list of a thread is to be freed by no other thread. -/
def Apart (s : State ι) (R : Head ι → List ℕ) : Prop :=
  ∀ t u c, c ∈ R (.allocated t) → c ∈ (s.thread u).allocChunksToFree → t = u

namespace Inv

variable {s s' : State ι} {cs : List ℕ} {c w : ℕ} {R R' : Head ι → List ℕ} {t u : ι}

/-- A chunk that a thread frees is on the list of no other thread. -/
theorem own_of_unshared (h : Inv s cs w R) {offset : ℕ} (hun : Unshared s (.free t offset))
    (hc : c ∈ (s.ainfo.pg offset).startsChunk) (hstart : (s.ainfo.chunk c).start = offset)
    (hu : c ∈ R (.allocated u)) : u = t := by
  rcases hun c hc hstart with hnone | hmem
  · exact absurd hu (h.rep.lists.not_mem_of_next hnone _)
  · rw [h.rep.list, Option.getD_some] at hmem
    simpa using h.rep.lists.disjoint hu hmem

/-- **Every step keeps the lists apart.** -/
theorem step_unshared (h : Inv s cs w R) (hapart : Apart s R) {act : Act ι} (hsized : Sized s act)
    (hun : Unshared s act) (hstep : Alloc.step s act = some s') :
    ∃ cs' w' R', Inv s' cs' w' R' ∧ Apart s' R' ∧ Moves s act.thread R R' := by
  obtain ⟨cs', w', R', hinv, hmoves⟩ : ∃ cs' w' R', Inv s' cs' w' R' ∧ Moves s act.thread R R' := by
    cases act with
    | alloc t size mem => exact h.alloc hsized.1 hsized.2 hstep
    | free t offset =>
      exact ⟨cs, w, R, h.free (fun c hc hs u _ hu => h.own_of_unshared hun hc hs hu) hstep,
        .refl _ _ _⟩
    | commit t writes => exact ⟨cs, w, R, h.commit hstep, .refl _ _ _⟩
    | abort t => exact ⟨cs, w, R, h.abort hstep, .refl _ _ _⟩
    | update t ts => exact ⟨cs, w, R, h.update hstep, .refl _ _ _⟩
    | hook t =>
      refine h.hook (fun c hc g hg => ?_) hstep
      obtain ⟨ts, hp, hmem⟩ := State.mem_of_toRelease hc
      cases g with
      | bestfit => exact absurd ((h.rep.bestfit c).1 hg).2 (by simp [h.toFree_busy hmem])
      | allocated u =>
        obtain rfl := hapart u t c hg hmem
        simp [h.releasing u ts hp] at hg
  refine ⟨cs', w', R', hinv, fun v u c hv hu => ?_, hmoves⟩
  have hold : c ∈ R (.allocated v) → c ∈ (s.thread u).allocChunksToFree ∨ (∃ offset a,
      act = .free u offset ∧ freeBlock (s.thread u).ts offset s.ainfo = some (a, some c)) →
      v = u := by
    rintro hv (hu | ⟨offset, a, rfl, hfree⟩)
    · exact hapart v u c hv hu
    · obtain ⟨-, ⟨hnone, -⟩ | ⟨d, hd, hcd, hstart, -⟩⟩ := h.rep.freeBlock hfree
      · simp at hnone
      · obtain rfl := Option.some.inj hcd
        refine h.own_of_unshared hun ?_ hstart hv
        obtain ⟨l, m, hl⟩ := List.append_of_mem (show c ∈ cs ++ [w] by simp [hd])
        rw [← hstart, Rep.pg_eq h.rep.tiled hl]
        rfl
  have hu' := toFree_of_step hstep hu
  by_cases hvt : v = act.thread
  · subst hvt
    rcases hmoves.own c hv with hv | hfree
    · exact hold hv hu'
    · rcases hu' with hu' | ⟨offset, a, rfl, -⟩
      · exact absurd hu' (hfree u)
      · rfl
  · rw [hmoves.others v hvt] at hv
    exact hold hv hu'

end Inv

theorem Inv.of_unshared {s : State ι}
    (h : (machine ι).ReachableWith (fun s act => Sized s act ∧ Unshared s act) s) :
    ∃ cs w R, Inv s cs w R ∧ Apart s R := by
  refine h.invariant (I := fun s => ∃ cs w R, Inv s cs w R ∧ Apart s R) (fun s hs => ?_)
    fun s act s' _ ⟨cs, w, R, hi, ha⟩ hc hstep => ?_
  · exact ⟨_, _, _, Inv.of_init hs, fun t u c hc => by simp at hc⟩
  · obtain ⟨cs', w', R', hi', ha', -⟩ := hi.step_unshared ha hc.1 hc.2 hstep
    exact ⟨cs', w', R', hi', ha'⟩

/-! ### Chunks are locked -/

/-- No chunk is on two lists or twice on one. -/
structure OneList (a : Ainfo ι) : Prop where
  nodup : ∀ g l, a.list g = some l → l.Nodup
  disjoint : ∀ g g' l l' c, a.list g = some l → a.list g' = some l' → c ∈ l → c ∈ l' → g = g'

/-- A step of thread `u` leaves the chunks on the lists of the others alone: they stay on
the list, are not freed, and are not on `bestfit_list`. -/
def Locked (s s' : State ι) (u : ι) : Prop :=
  ∀ t, t ≠ u → ∀ l, s.ainfo.list (.allocated t) = some l →
    s'.ainfo.list (.allocated t) = some l ∧ ∀ c ∈ l, s'.ainfo.live c = true ∧
      (s'.ainfo.chunk c).busy = true ∧ ∀ b, s'.ainfo.list .bestfit = some b → c ∉ b

/-- **An uncommitted allocation is locked** in every run in which a thread frees only chunks
that are on no list or on its own: each chunk is on at most one list, and whatever a
thread does, the chunks on the lists of the others stay there. -/
theorem uncommitted_locked {s : State ι}
    (h : (machine ι).ReachableWith (fun s act => Sized s act ∧ Unshared s act) s) :
    OneList s.ainfo ∧ ∀ act s', Sized s act → Unshared s act → step s act = some s' →
      Locked s s' act.thread := by
  obtain ⟨cs, w, R, hi, ha⟩ := Inv.of_unshared h
  refine ⟨⟨fun g l hl => ?_, fun g g' l l' c hl hl' hc hc' => ?_⟩,
    fun act s' hsized hun hstep => ?_⟩
  · obtain rfl := Option.some.inj ((hi.rep.list g).symm.trans hl)
    exact hi.rep.lists.nodup g
  · obtain rfl := Option.some.inj ((hi.rep.list g).symm.trans hl)
    obtain rfl := Option.some.inj ((hi.rep.list g').symm.trans hl')
    exact hi.rep.lists.disjoint hc hc'
  · obtain ⟨cs', w', R', hi', -, hmoves⟩ := hi.step_unshared ha hsized hun hstep
    intro t ht l hl
    obtain rfl := Option.some.inj ((hi.rep.list _).symm.trans hl)
    refine ⟨by rw [hi'.rep.list, hmoves.others t ht], fun c hc => ?_⟩
    rw [← hmoves.others t ht] at hc
    obtain ⟨hcs, hbusy⟩ := hi'.rep.held t c hc
    refine ⟨(hi'.rep.tiled.live c).2 (by simp [hcs]), hbusy, fun b hb hcb => ?_⟩
    obtain rfl := Option.some.inj ((hi'.rep.list _).symm.trans hb)
    simpa using hi'.rep.lists.disjoint hc hcb

/-- Two threads allocate a block each, and the second one frees its own and commits. -/
def ownFree : List (Act Bool) :=
  [.alloc false 4096 plenty, .alloc true 4096 plenty, .free true 4096, .commit true true]

/-- The hook of the second thread, which merges its chunk with the free rest, leaves the
chunk of the first one alone. -/
theorem uncommitted_locked_ownFree : ∃ s s',
    (machine Bool).ReachableWith (fun s act => Sized s act ∧ Unshared s act) s ∧
    step s (.hook true) = some s' ∧ s.ainfo.list (.allocated false) = some [0] ∧
    s'.ainfo.list .bestfit = some [2] ∧ OneList s.ainfo ∧ Locked s s' true := by
  have h : (((machine Bool).run (fun s act => decide (Sized s act ∧ Unshared s act)) fresh
      ownFree).bind fun s => (step s (.hook true)).map fun s' =>
        (s.ainfo.list (.allocated false), s'.ainfo.list .bestfit)) = some (some [0], some [2]) := by
    decide +kernel
  obtain ⟨s, hs, h⟩ := Option.bind_eq_some_iff.1 h
  obtain ⟨s', hstep, hlook⟩ := Option.map_eq_some_iff.1 h
  obtain ⟨hlist, hbest⟩ := Prod.mk.inj hlook
  have hreach : (machine Bool).ReachableWith (fun s act => Sized s act ∧ Unshared s act) s :=
    Machine.ReachableWith.run (fun s act => of_decide_eq_true) (.init init_fresh) hs
  obtain ⟨hone, hlocked⟩ := uncommitted_locked hreach
  exact ⟨s, s', hreach, hstep, hlist, hbest, hone,
    hlocked (.hook true) s' trivial trivial hstep⟩

/-- A thread allocates a block, and another one frees it and commits. -/
def steal : List (Act Bool) :=
  [.alloc false 4096 plenty, .free true 0, .commit true true, .hook true]

/-- The hook of the thief puts the chunk on `bestfit_list`. -/
theorem not_uncommitted_locked_steal : ∃ s s', (machine Bool).ReachableWith Sized s ∧
    step s (.hook true) = some s' ∧ s.ainfo.list (.allocated false) = some [0] ∧
    ¬Locked s s' true := by
  have h : (((machine Bool).run (fun s act => decide (Sized s act)) fresh steal).bind fun s =>
      (step s (.hook true)).map fun s' => (s.ainfo.list (.allocated false),
        (s'.ainfo.chunk 0).busy)) = some (some [0], false) := by decide +kernel
  obtain ⟨s, hs, h⟩ := Option.bind_eq_some_iff.1 h
  obtain ⟨s', hstep, hlook⟩ := Option.map_eq_some_iff.1 h
  simp only [Prod.mk.injEq] at hlook
  obtain ⟨hlist, hbusy⟩ := hlook
  refine ⟨s, s', Machine.ReachableWith.run (fun s act => of_decide_eq_true) (.init init_fresh) hs,
    hstep, hlist, fun hlocked => ?_⟩
  have := ((hlocked false (by decide) [0] hlist).2 0 (by simp)).2.1
  simp [hbusy] at this

end Alloc
end Sivfs
