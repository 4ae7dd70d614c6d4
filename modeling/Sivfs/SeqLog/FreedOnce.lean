/-
# Chunks are freed once, and when they are empty

`chunks_freed_once` is about every state reached by commits and calls of
`sivfs_delete_log` in any interleaving.  That a call comes to an end is said with a number,
`System.work`, that goes down with each of its steps and up with no step of others.

`freed_while_cached` is a run in which a chunk is freed that an entry of `log_cache` is in:
the entry has been visited in the same turn.
-/

import Sivfs.SeqLog.Chunks

open Function

namespace Sivfs
namespace SeqLog

open Call
open Commit (sizeofLogEntry sizeofPointer)

variable {ι : Type*} [DecidableEq ι] {s s' : System ι} {a : Act ι}

/-! ### What is left of a call -/

/-- The number of entries before `stop`. -/
def System.before (s : System ι) (stop : Ts) : ℕ :=
  s.log.logCache.countP fun p => (p.1 : Ts) < stop

/-- A bound on the steps that a thread's call still takes. -/
def System.work (s : System ι) (i : ι) : ℕ :=
  match s.pc i with
  | .out => 0
  | .tail => 1
  | .visiting stop indices =>
    3 * (s.before stop - indices.length) + if indices = [] then 2 else 4
  | .turn stop => 3 * s.before stop + 3

omit [DecidableEq ι] in
/-- A turn of another thread makes no more work. -/
theorem work_le {i : ι} (hpc : s'.pc i = s.pc i)
    (h : ∀ stop, (s.pc i).stop = some stop → s'.before stop ≤ s.before stop) :
    s'.work i ≤ s.work i := by
  rw [System.work, System.work, hpc]
  cases hi : s.pc i with
  | out => exact le_rfl
  | tail => exact le_rfl
  | visiting stop indices =>
    have := h stop (by rw [hi]; rfl)
    simp only
    omega
  | turn stop =>
    have := h stop (by rw [hi]; rfl)
    simp only
    omega

omit [DecidableEq ι] in
/-- What a turn has visited is before `stop`. -/
theorem Entries.before_eq (h : Entries s) {i : ι} {stop : Ts} {indices : List ℕ}
    (hpc : s.pc i = .visiting stop indices) : s.before stop =
      indices.length + (s.log.logCache.drop indices.length).countP fun p => (p.1 : Ts) < stop := by
  obtain ⟨heq, hbefore⟩ := h.visited i stop indices hpc
  have htake : (s.log.logCache.take indices.length).countP (fun p => (p.1 : Ts) < stop) =
      indices.length := by
    have hall : (s.log.logCache.take indices.length).countP (fun p => (p.1 : Ts) < stop) =
        (s.log.logCache.take indices.length).length := by
      rw [List.countP_eq_length]
      intro p hp
      have hmem : p.1 ∈ indices := by
        rw [heq]
        exact List.mem_map_of_mem hp
      simpa using hbefore p.1 hmem
    rw [hall]
    simpa using (congrArg List.length heq).symm
  rw [System.before, ← htake, ← List.countP_append, htake, List.take_append_drop]

/-- **Each step of a thread in a call leaves less to do, and no other step adds to it.** -/
theorem work_step (hi : Inv s) (hstep : Stepped s a s') (i : ι) {stop : Ts}
    (hcall : (s.pc i).stop = some stop) :
    (a.thread = some i → s'.work i < s.work i) ∧ (a.thread ≠ some i → s'.work i ≤ s.work i) := by
  have hi' := hi.entries.step hi.calls hstep
  have hother : ∀ {j : ι}, some j ≠ some i → i ≠ j := fun h e => h (congrArg some e.symm)
  cases hstep with
  | @create ts size a log hlock hopen hts hc =>
    refine ⟨fun h => (by cases h), fun _ => work_le rfl fun stop' hstop' => ?_⟩
    have hle : ¬((ts : Ts) < stop') := by
      rcases hi.calls.stop i stop' hstop' with hle | rfl
      · refine not_lt.2 (hle.trans (WithTop.coe_le_coe.2 ?_))
        rcases hlatest : s.latestTs with _ | t
        · simp
        · simpa using (hts t hlatest).le
      · rw [(hi.calls.final i hstop').1] at hopen
        cases hopen
    simp [System.before, hi.entries.logCache_create hts hc, hle]
  | @call j stop' hpc hopen hstop' =>
    have hji : i ≠ j := by
      rintro rfl
      simp [hpc, Pc.stop] at hcall
    exact ⟨fun h => absurd (Option.some.inj h).symm hji,
      fun _ => work_le (update_of_ne hji ..) fun _ _ => le_rfl⟩
  | @lock j stop' hpc hlock =>
    refine ⟨fun h => ?_, fun h => work_le (update_of_ne (hother h) ..) fun _ _ => le_rfl⟩
    obtain rfl := Option.some.inj h
    simp [System.work, hpc, System.before]
  | @visit j stop' indices p hpc hp =>
    obtain ⟨freed, hvisit⟩ := visit_eq s.log p.2
    refine ⟨fun h => ?_, fun h => work_le (update_of_ne (hother h) ..) fun _ _ => ?_⟩
    · obtain rfl := Option.some.inj h
      have hpc' : update s.pc j (.visiting stop' (indices ++ [p.1])) j =
          .visiting stop' (indices ++ [p.1]) := update_self ..
      have heq := hi'.before_eq hpc'
      simp only [System.before, hvisit, List.length_append, List.length_singleton] at heq
      simp only [System.work, update_self, hpc, System.before, hvisit, List.length_append,
        List.length_singleton]
      split_ifs <;> simp_all <;> omega
    · simp [System.before, hvisit]
  | @unlock j stop' indices hpc hend =>
    have hcache := hi.entries.logCache_unlock hpc
    obtain ⟨new, hnew, hcases⟩ := unlock_pc s j stop' indices
    refine ⟨fun h => ?_, fun h => work_le ?_ fun stop'' _ => ?_⟩
    · obtain rfl := Option.some.inj h
      have heq := hi.entries.before_eq hpc
      rw [System.work, System.work, hnew, update_self, hpc]
      simp only [System.before, hcache] at heq ⊢
      rcases hcases with ⟨rfl, hne⟩ | ⟨rfl, ⟨rfl, -⟩ | ⟨rfl, -⟩⟩
      · simp only [hne, if_false]
        omega
      · simp
      · simp
    · rw [hnew, update_of_ne (hother h)]
    · rw [System.before, hcache]
      exact (List.drop_sublist _ _).countP_le
  | @cleanUp j hpc hlock =>
    obtain ⟨freed, hclean⟩ := cleanUp_eq s.log
    refine ⟨fun h => ?_, fun h => work_le (update_of_ne (hother h) ..) fun _ _ => ?_⟩
    · obtain rfl := Option.some.inj h
      simp [System.work, System.return, hpc]
    · simp [System.before, hclean]

/-- The chunks of the log in a state of a run. -/
structure FreedOnce (s : System ι) : Prop where
  /-- The entries of `log_cache` are in chunks that have not been freed, except for those
  visited in the turn that the thread with `commit_lock` is in. -/
  kept : ∀ p ∈ s.log.logCache, p.2.chunk ∈ s.log.freed → p.1 ∈ s.visited
  /-- So is `master_log.latest` until the final call is over. -/
  latest : ∀ a, s.log.masterLog.latest = some a → a.chunk ∈ s.log.freed → s.closed = true
  once : s.log.freed.Nodup
  /-- What is deleted is before the `stop_ts` of the call that deletes it, and was visited. -/
  deleted : ∀ a s', step s a = some s' → ∀ p ∈ s.log.logCache, p ∉ s'.log.logCache →
    ∃ i stop, a = .unlock i ∧ (s.pc i).stop = some stop ∧ (p.1 : Ts) < stop
  /-- The thread that releases `commit_lock` has removed what it visited. -/
  removed : ∀ i s', step s (.unlock i) = some s' → s'.commitLock = none ∧
    ∀ p ∈ s'.log.logCache, p.1 ∉ s.visited
  /-- When a call returns, what is before its `stop_ts` is deleted, and after the final call
  all chunks are freed. -/
  returned : ∀ a s' i stop, step s a = some s' → (s.pc i).stop = some stop → s'.pc i = .out →
    (∀ p ∈ s'.log.logCache, stop ≤ (p.1 : Ts)) ∧
      (stop = invalidTs → ∀ c < s'.log.chunks, c ∈ s'.log.freed)
  /-- A call comes to an end: its thread can go on when no other has the lock, which only
  goes on for a bounded number of steps. -/
  goesOn : ∀ i stop, (s.pc i).stop = some stop → (∀ j, s.commitLock = some j → j = i) →
    ∃ a s', a.thread = some i ∧ step s a = some s'
  ends : ∀ a s' i stop, step s a = some s' → (s.pc i).stop = some stop →
    (a.thread = some i → s'.work i < s.work i) ∧ (a.thread ≠ some i → s'.work i ≤ s.work i)

omit [DecidableEq ι] in
/-- An entry that is still in `log_cache` while its chunk is freed has been visited. -/
theorem Inv.kept (h : Inv s) {p : ℕ × Addr} (hp : p ∈ s.log.logCache)
    (hfreed : p.2.chunk ∈ s.log.freed) : p.1 ∈ s.visited := by
  obtain ⟨k, hlaid, -, hiff⟩ := h.chunked.freed
  have hsplit : p ∈ s.log.logCache.take s.visited.length ++ s.ahead := by
    rw [System.ahead, List.take_append_drop]
    exact hp
  rcases List.mem_append.1 hsplit with hseen | hahead
  · rcases hlock : s.commitLock with _ | i
    · simp [System.visited, hlock] at hseen
    · obtain ⟨stop, indices, hpc⟩ := h.held i hlock
      have hvisited : s.visited = indices := by simp [System.visited, hlock, hpc, Pc.indices]
      rw [hvisited] at hseen ⊢
      rw [(h.entries.visited i stop indices hpc).1]
      exact List.mem_map_of_mem hseen
  · have hle := hlaid.le_chunk p hahead
    rcases (hiff _).1 hfreed with hlt | ⟨hclosed, -⟩
    · omega
    · rw [h.entries.closed hclosed] at hp
      cases hp

/-- A call that has the lock, or could take it, can take a turn. -/
theorem Inv.goesOn (h : Inv s) {i : ι} {stop : Ts} (hcall : (s.pc i).stop = some stop)
    (hlock : ∀ j, s.commitLock = some j → j = i) :
    ∃ a s', a.thread = some i ∧ step s a = some s' := by
  have hfree : (∀ stop indices, s.pc i ≠ .visiting stop indices) → s.commitLock = none := by
    intro hpc
    rw [Option.eq_none_iff_forall_ne_some]
    intro j hj
    obtain ⟨stop', indices, hj'⟩ := h.held j hj
    rw [hlock j hj] at hj'
    exact hpc stop' indices hj'
  have hgo : ∀ a : Act ι, a.thread = some i → (step s a).isSome = true →
      ∃ a s', a.thread = some i ∧ step s a = some s' := by
    intro a ha hsome
    obtain ⟨s', hs'⟩ := Option.isSome_iff_exists.1 hsome
    exact ⟨a, s', ha, hs'⟩
  cases hpc : s.pc i with
  | out => simp [hpc, Pc.stop] at hcall
  | turn stop' => exact hgo (.lock i) rfl (by simp [step, hpc, hfree (by simp [hpc])])
  | visiting stop' indices =>
    rcases hnext : s.log.nextSlot stop' indices with _ | p
    · exact hgo (.unlock i) rfl (by simp [step, hpc, hnext])
    · exact hgo (.visit i) rfl (by simp [step, hpc, hnext])
  | tail => exact hgo (.cleanUp i) rfl (by simp [step, hpc, hfree (by simp [hpc])])

/-- What a step deletes. -/
theorem Inv.deleted (h : Inv s) (hstep : Stepped s a s') {p : ℕ × Addr} (hp : p ∈ s.log.logCache)
    (hgone : p ∉ s'.log.logCache) :
    ∃ i stop, a = .unlock i ∧ (s.pc i).stop = some stop ∧ (p.1 : Ts) < stop := by
  cases hstep with
  | create hlock hopen hts hc =>
    simp only [h.entries.logCache_create hts hc] at hgone
    exact absurd (List.mem_append_left _ hp) hgone
  | call => exact absurd hp hgone
  | lock => exact absurd hp hgone
  | @visit i stop indices q =>
    obtain ⟨freed, hvisit⟩ := visit_eq s.log q.2
    simp only [hvisit] at hgone
    exact absurd hp hgone
  | @unlock i stop indices hpc hend =>
    refine ⟨i, stop, rfl, by rw [hpc]; rfl, ?_⟩
    obtain ⟨heq, hbefore⟩ := h.entries.visited i stop indices hpc
    refine hbefore p.1 ?_
    rw [h.entries.logCache_unlock hpc] at hgone
    have hseen : p ∈ s.log.logCache.take indices.length := by
      rw [← List.take_append_drop indices.length s.log.logCache, List.mem_append] at hp
      exact hp.resolve_right hgone
    rw [heq]
    exact List.mem_map_of_mem hseen
  | cleanUp =>
    obtain ⟨freed, hclean⟩ := cleanUp_eq s.log
    simp only [hclean] at hgone
    exact absurd hp hgone

/-- When the lock is released, all entries that were visited are removed. -/
theorem Inv.removed (h : Inv s) {i : ι} (hstep : Stepped s (.unlock i) s') :
    s'.commitLock = none ∧ ∀ p ∈ s'.log.logCache, p.1 ∉ s.visited := by
  cases hstep with
  | @unlock i stop indices hpc hend =>
    have hlock := h.calls.lock i stop indices hpc
    have hvisited : s.visited = indices := by simp [System.visited, hlock, hpc, Pc.indices]
    obtain ⟨deletedTs, hlog⟩ := unlock_log s i stop indices
    constructor
    · rw [System.unlock]
      split_ifs <;> rfl
    · intro p hp
      rw [hlog] at hp
      rw [hvisited]
      simpa using (List.mem_filter.1 hp).2

/-- A call that returns has removed everything before `stop`; with `SIVFS_INVALID_TS` it has freed
every chunk. -/
theorem Inv.returned (h : Inv s) (hstep : Stepped s a s') {i : ι} {stop : Ts}
    (hcall : (s.pc i).stop = some stop) (hout : s'.pc i = .out) :
    (∀ p ∈ s'.log.logCache, stop ≤ (p.1 : Ts)) ∧
      (stop = invalidTs → ∀ c < s'.log.chunks, c ∈ s'.log.freed) := by
  have hi' := h.chunked.step h.entries h.calls hstep
  have hne : s.pc i ≠ .out := by
    intro hpc
    simp [hpc, Pc.stop] at hcall
  have hmoved : ∀ {j : ι} {new : Pc}, update s.pc j new i = .out → i = j ∧ new = .out := by
    intro j new hj
    by_cases hij : i = j
    · rw [hij, update_self] at hj
      exact ⟨hij, hj⟩
    · rw [update_of_ne hij] at hj
      exact absurd hj hne
  cases hstep with
  | create => exact absurd hout hne
  | call => cases (hmoved hout).2
  | lock => cases (hmoved hout).2
  | visit => cases (hmoved hout).2
  | @unlock j stop' indices hpc hend =>
    obtain ⟨new, hnew, hcases⟩ := unlock_pc s j stop' indices
    rw [hnew] at hout
    obtain ⟨rfl, rfl⟩ := hmoved hout
    rcases hcases with ⟨hturn, -⟩ | ⟨rfl, ⟨htail, -⟩ | ⟨-, hinv⟩⟩
    · cases hturn
    · cases htail
    · obtain rfl : stop' = stop := by simpa [hpc, Pc.stop] using hcall
      refine ⟨?_, fun hstop => absurd hstop hinv⟩
      rw [h.entries.logCache_unlock hpc]
      exact nextSlot_nil_eq_none h.entries.placed.sorted hend
  | @cleanUp j hpc hlock =>
    obtain ⟨freed, hclean⟩ := cleanUp_eq s.log
    obtain ⟨rfl, -⟩ := hmoved hout
    constructor
    · simp only [hclean, h.entries.tail i hpc]
      simp
    · intro _ c hc
      obtain ⟨k, -, -, hiff⟩ := hi'.freed
      exact (hiff c).2 (.inr ⟨rfl, hc⟩)

/-- **Log chunks are freed once, and only when they are empty**, but for the entries that
were visited in the same turn. -/
theorem chunks_freed_once (h : (logMachine ι).Reachable s) : FreedOnce s := by
  have hi := inv h
  obtain ⟨k, hlaid, hnodup, hiff⟩ := hi.chunked.freed
  have hcases : ∀ {a s'}, step s a = some s' → Stepped s a s' := stepped hi.entries.placed
  refine ⟨fun p => hi.kept, fun b hb hfreed => ?_, hnodup, fun a s' hs p => hi.deleted (hcases hs),
    fun i s' hs => hi.removed (hcases hs), fun a s' i stop hs => hi.returned (hcases hs),
    fun i stop => hi.goesOn, fun a s' i stop hs => work_step hi (hcases hs) i⟩
  have hlast := hi.chunked.latest b hb
  have hle := hlaid.le
  rcases (hiff _).1 hfreed with hlt | ⟨hclosed, -⟩
  · omega
  · exact hclosed

/-- The log of a new shared state, for one thread. -/
def newSystem : System Unit := ⟨.empty, none, fun _ => .out, none, false, false⟩

/-- Three entries in chunks of their own, and a call that has visited two of them. -/
def threeChunks : List (Act Unit) :=
  [.create 1 900, .create 2 900, .create 3 900, .call () 3, .lock (), .visit (), .visit ()]

theorem threeChunks_run : ((logMachine Unit).run (fun _ _ => true) newSystem threeChunks).map
    (fun s => (s.log.logCache, s.log.freed)) =
      some ([(1, ⟨0, 8⟩), (2, ⟨1, 8⟩), (3, ⟨2, 8⟩)], [0]) := by
  decide +kernel

theorem newSystem_reachable : (logMachine Unit).Reachable newSystem :=
  .init ⟨rfl, rfl, fun _ => rfl, rfl, rfl, rfl⟩

theorem chunks_freed_once_threeChunks : ∃ s, (logMachine Unit).Reachable s ∧
    s.log.freed = [0] ∧ FreedOnce s := by
  obtain ⟨s, hs, hfields⟩ := Option.map_eq_some_iff.1 threeChunks_run
  have hreach := newSystem_reachable.run (fun _ _ _ => trivial) hs
  exact ⟨s, hreach, (Prod.mk.inj hfields).2, chunks_freed_once hreach⟩

/-- **The first chunk is freed while its entry is in `log_cache`.** -/
theorem freed_while_cached : ¬∀ s : System Unit, (logMachine Unit).Reachable s →
    ∀ p ∈ s.log.logCache, p.2.chunk ∉ s.log.freed := by
  intro hall
  obtain ⟨s, hs, hfields⟩ := Option.map_eq_some_iff.1 threeChunks_run
  obtain ⟨hcache, hfreed⟩ := Prod.mk.inj hfields
  refine hall s (newSystem_reachable.run (fun _ _ _ => trivial) hs) (1, ⟨0, 8⟩) ?_ ?_
  · rw [hcache]
    exact List.mem_cons_self
  · rw [hfreed]
    exact List.mem_cons_self

end SeqLog
end Sivfs
