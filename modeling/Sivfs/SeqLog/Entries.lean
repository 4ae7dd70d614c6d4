/-
# The entries of `log_cache`

What a call of `sivfs_delete_log` has visited, and what is left in `log_cache`, while others
append and delete.  In a turn, which holds `commit_lock`, a call visits slots from the front
(`Entries.take_visit`) and removes exactly these at its end (`Entries.logCache_unlock`); a new
entry comes last (`Entries.logCache_create`).
-/

import Sivfs.SeqLog.Delete
import Mathlib.Data.List.TakeWhile

open Function

namespace Sivfs
namespace SeqLog

open Call
open Commit (sizeofLogEntry sizeofPointer)

/-! ### What has been visited -/

/-- The timestamps visited in a turn. -/
def Pc.indices : Pc → List ℕ
  | .visiting _ indices => indices
  | _ => []

variable {ι : Type*}

/-- What the thread with `commit_lock` has visited. -/
def System.visited (s : System ι) : List ℕ := s.commitLock.elim [] fun i => (s.pc i).indices

/-- The slots not yet visited. -/
def System.ahead (s : System ι) : List (ℕ × Addr) := s.log.logCache.drop s.visited.length

/-- The next slot of the walk is the first one behind those visited, and before `stop`. -/
theorem nextSlot_eq_some {s : State} {stop : Ts} {indices : List ℕ} {p : ℕ × Addr}
    (h : s.nextSlot stop indices = some p) :
    (p.1 : Ts) < stop ∧ s.logCache.drop indices.length =
      p :: s.logCache.drop (indices.length + 1) := by
  rw [State.nextSlot] at h
  split_ifs at h
  obtain ⟨hget, hlt⟩ := Option.filter_eq_some_iff.1 h
  obtain ⟨hlen, rfl⟩ := List.getElem?_eq_some_iff.1 hget
  exact ⟨by simpa using hlt, List.drop_eq_getElem_cons hlen⟩

/-- A turn that visits nothing: no entry is left before `stop`. -/
theorem nextSlot_nil_eq_none {s : State} {stop : Ts}
    (hsorted : (s.logCache.map Prod.fst).Pairwise (· < ·)) (h : s.nextSlot stop [] = none) :
    ∀ p ∈ s.logCache, stop ≤ (p.1 : Ts) := by
  rw [State.nextSlot, if_neg (by simp [deleteBatch])] at h
  rcases hcache : s.logCache with _ | ⟨q, slots⟩
  · simp
  · rw [hcache] at h hsorted
    have hq : stop ≤ (q.1 : Ts) := by simpa [Option.filter_eq_none_iff] using h
    rw [List.map_cons, List.pairwise_cons] at hsorted
    intro p hp
    rcases List.mem_cons.1 hp with rfl | hp
    · exact hq
    · exact hq.trans (WithTop.coe_le_coe.2 (hsorted.1 _ (List.mem_map_of_mem hp)).le)

/-- What is removed is what was visited. -/
theorem remove_eq_drop {s : State} {indices : List ℕ}
    (hsorted : (s.logCache.map Prod.fst).Pairwise (· < ·))
    (h : indices = (s.logCache.take indices.length).map Prod.fst) :
    (s.remove indices).logCache = s.logCache.drop indices.length := by
  have hsplit : s.logCache.take indices.length ++ s.logCache.drop indices.length = s.logCache :=
    List.take_append_drop _ _
  have hnodup : (s.logCache.map Prod.fst).Nodup := hsorted.imp fun hlt => hlt.ne
  rw [← hsplit, List.map_append, List.nodup_append, ← h] at hnodup
  have hvisited : (s.logCache.take indices.length).filter (fun p => p.1 ∉ indices) = [] := by
    rw [List.filter_eq_nil_iff]
    intro p hp
    have hmem : p.1 ∈ indices := by
      rw [h]
      exact List.mem_map_of_mem hp
    simpa using hmem
  have hahead : (s.logCache.drop indices.length).filter (fun p => p.1 ∉ indices) =
      s.logCache.drop indices.length := by
    rw [List.filter_eq_self]
    intro p hp
    simpa using fun hmem => hnodup.2.2 _ hmem _ (List.mem_map_of_mem hp) rfl
  calc (s.remove indices).logCache
      = (s.logCache.take indices.length ++ s.logCache.drop indices.length).filter
          (fun p => p.1 ∉ indices) := by rw [hsplit]; rfl
    _ = s.logCache.drop indices.length := by rw [List.filter_append, hvisited, hahead]; rfl

/-- Entries that are removed, and memory that is freed, leave the others where they are. -/
theorem Placed.of_sublist {s s' : State} (h : Placed s)
    (hcache : List.Sublist s'.logCache s.logCache) (hentry : s'.logEntry = s.logEntry)
    (hchunks : s'.chunks = s.chunks) (hsize : s'.chunkSize = s.chunkSize)
    (hptr : s'.masterLog.chunkPtr = s.masterLog.chunkPtr)
    (hstart : s'.masterLog.chunkStartPtr = s.masterLog.chunkStartPtr)
    (hroom : s'.masterLog.bytesRemainingChunk ≤ s.masterLog.bytesRemainingChunk) : Placed s' := by
  have hend : ∀ a, s'.endOf a = s.endOf a := fun a => by rw [State.endOf, State.endOf, hentry]
  refine ⟨h.sorted.sublist (hcache.map _), fun p hp => ?_, ?_, fun c hc => ?_, fun hnone => ?_⟩
  · have hin := h.inChunk p (hcache.subset hp)
    refine ⟨?_, hin.offset, ?_, ?_, fun hs => ?_⟩
    · rw [hchunks]
      exact hin.chunk
    · rw [hentry]
      exact hin.entries
    · rw [hend, hsize]
      exact hin.endOf
    · rw [hend, hptr]
      exact hin.used (hstart ▸ hs)
  · refine (h.apart.sublist hcache).imp fun {p q} hapart hc => ?_
    rw [hend, hend]
    exact hapart hc
  · obtain ⟨hlt, hchunk, hoff, hfit⟩ := h.current c (hstart ▸ hc)
    rw [hchunks, hptr, hsize]
    exact ⟨hlt, hchunk, hoff, by omega⟩
  · have := h.noChunk (hstart ▸ hnone)
    omega

/-- A visit may free a chunk and does nothing else. -/
theorem visit_eq (s : State) (a : Addr) : ∃ freed, s.visit a = { s with freed := freed } := by
  rw [State.visit]
  split_ifs
  · rcases s.word ⟨a.chunk, a.offset - sizeofPointer⟩ with _ | c
    · exact ⟨s.freed, rfl⟩
    · exact ⟨c :: s.freed, rfl⟩
  · exact ⟨s.freed, rfl⟩

/-- The end of the walk may free the last chunk, in which nothing is left then. -/
theorem cleanUp_eq (s : State) : ∃ freed, s.cleanUp =
    { s with freed := freed, masterLog := { s.masterLog with bytesRemainingChunk := 0 } } := by
  rw [State.cleanUp]
  rcases s.masterLog.chunkStartPtr with _ | c
  · exact ⟨s.freed, rfl⟩
  · exact ⟨c :: s.freed, rfl⟩

/-- A timestamp later than all goes last. -/
theorem insertSlot_last {ts : ℕ} {a : Addr} {slots : List (ℕ × Addr)}
    (h : ∀ p ∈ slots, p.1 < ts) : insertSlot ts a slots = slots ++ [(ts, a)] := by
  have htake : slots.takeWhile (fun p => p.1 < ts) = slots := by
    rw [List.takeWhile_eq_self_iff]
    simpa using h
  have hdrop : slots.dropWhile (fun p => p.1 < ts) = [] := by
    rw [List.dropWhile_eq_nil_iff]
    simpa using h
  rw [insertSlot, htake, hdrop]

/-! ### The entries of `log_cache` -/

/-- The entries of `log_cache`, and which of them the calls in progress have visited. -/
structure Entries (s : System ι) : Prop where
  placed : Placed s.log
  latest : ∀ p ∈ s.log.logCache, ∃ t, s.latestTs = some t ∧ p.1 ≤ t
  visited : ∀ i stop indices, s.pc i = .visiting stop indices →
    indices = (s.log.logCache.take indices.length).map Prod.fst ∧ ∀ t ∈ indices, (t : Ts) < stop
  tail : ∀ i, s.pc i = .tail → s.log.logCache = []
  closed : s.closed = true → s.log.logCache = []

/-- A new entry comes last. -/
theorem Entries.logCache_create {s : System ι} (h : Entries s) {ts size : ℕ} {a : Addr}
    {log : State}
    (hts : ∀ t ∈ s.latestTs, t < ts) (hc : Created s.log ts size a log) :
    log.logCache = s.log.logCache ++ [(ts, a)] := by
  rw [hc.logCache]
  refine insertSlot_last fun p hp => ?_
  obtain ⟨t, ht, hle⟩ := h.latest p hp
  exact hle.trans_lt (hts t ht)

/-- Steps that leave `log_cache` alone, or that take the first slots away. -/
theorem Entries.of_drop {s s' : System ι} (h : Entries s) {m : ℕ} (hp : Placed s'.log)
    (hcache : s'.log.logCache = s.log.logCache.drop m) (hlatest : s'.latestTs = s.latestTs)
    (hvisited : ∀ i stop indices, s'.pc i = .visiting stop indices →
      indices = (s'.log.logCache.take indices.length).map Prod.fst ∧ ∀ t ∈ indices, (t : Ts) < stop)
    (htail : ∀ i, s'.pc i = .tail → s.pc i = .tail ∨ s'.log.logCache = [])
    (hclosed : s'.closed = true → s.closed = true ∨ s'.log.logCache = []) : Entries s' := by
  have hempty : s.log.logCache = [] → s'.log.logCache = [] := fun he => by
    rw [hcache, he, List.drop_nil]
  refine ⟨hp, fun p hmem => ?_, hvisited, fun i hi => ?_, fun hc => ?_⟩
  · rw [hcache] at hmem
    rw [hlatest]
    exact h.latest p (List.drop_subset m _ hmem)
  · exact (htail i hi).elim (fun hi => hempty (h.tail i hi)) id
  · exact (hclosed hc).elim (fun hc => hempty (h.closed hc)) id

variable [DecidableEq ι] {s s' : System ι} {a : Act ι}

/-- A turn of a call visits nothing, or removes what it visited. -/
theorem Entries.logCache_unlock (h : Entries s) {i : ι} {stop : Ts} {indices : List ℕ}
    (hpc : s.pc i = .visiting stop indices) :
    (s.unlock i stop indices).log.logCache = s.log.logCache.drop indices.length := by
  have hdrop := remove_eq_drop h.placed.sorted (h.visited i stop indices hpc).1
  rw [← hdrop, System.unlock]
  split_ifs <;> rfl

/-- With the lock, the slots visited go. -/
theorem unlock_log (s : System ι) (i : ι) (stop : Ts) (indices : List ℕ) :
    ∃ deletedTs, (s.unlock i stop indices).log =
      { s.log.remove indices with masterLogDeletedTs := deletedTs } := by
  rw [System.unlock]
  split_ifs
  · exact ⟨s.log.masterLogDeletedTs, rfl⟩
  · exact ⟨s.log.masterLogDeletedTs, rfl⟩
  · exact ⟨stop, rfl⟩

/-- Where a thread is after a turn. -/
theorem unlock_pc (s : System ι) (i : ι) (stop : Ts) (indices : List ℕ) :
    ∃ new, (s.unlock i stop indices).pc = update s.pc i new ∧
      (new = .turn stop ∧ indices ≠ [] ∨ indices = [] ∧
        (new = .tail ∧ stop = invalidTs ∨ new = .out ∧ stop ≠ invalidTs)) := by
  rw [System.unlock]
  split_ifs with hne hinv
  · exact ⟨.turn stop, rfl, .inl ⟨rfl, hne⟩⟩
  · exact ⟨.tail, rfl, .inr ⟨not_not.1 hne, .inl ⟨rfl, hinv⟩⟩⟩
  · exact ⟨.out, rfl, .inr ⟨not_not.1 hne, .inr ⟨rfl, hinv⟩⟩⟩

/-- A step of thread `i` that leaves the entries alone. -/
theorem Entries.goto (h : Entries s) {i : ι} {new : Pc} (hp : Placed s'.log)
    (hcache : s'.log.logCache = s.log.logCache) (hlatest : s'.latestTs = s.latestTs)
    (hpc : s'.pc = update s.pc i new)
    (hvisited : ∀ stop indices, new = .visiting stop indices →
      indices = (s.log.logCache.take indices.length).map Prod.fst ∧ ∀ t ∈ indices, (t : Ts) < stop)
    (htail : new ≠ .tail)
    (hclosed : s'.closed = true → s.closed = true ∨ s.log.logCache = []) : Entries s' := by
  refine h.of_drop (m := 0) hp hcache hlatest (fun j stop indices hj => ?_) (fun j hj => .inl ?_)
    fun hc => (hclosed hc).imp_right hcache.trans
  · rw [hpc] at hj
    rw [hcache]
    by_cases hji : j = i
    · rw [hji, update_self] at hj
      exact hvisited stop indices hj
    · rw [update_of_ne hji] at hj
      exact h.visited j stop indices hj
  · rw [hpc] at hj
    by_cases hji : j = i
    · rw [hji, update_self] at hj
      exact absurd hj htail
    · rwa [update_of_ne hji] at hj

omit [DecidableEq ι] in
/-- The next slot is visited. -/
theorem Entries.take_visit (h : Entries s) {i : ι} {stop : Ts} {indices : List ℕ} {p : ℕ × Addr}
    (hpc : s.pc i = .visiting stop indices) (hp : s.log.nextSlot stop indices = some p) :
    indices ++ [p.1] = (s.log.logCache.take (indices ++ [p.1]).length).map Prod.fst ∧
      ∀ t ∈ indices ++ [p.1], (t : Ts) < stop := by
  obtain ⟨hlt, hdrop⟩ := nextSlot_eq_some hp
  obtain ⟨heq, hbefore⟩ := h.visited i stop indices hpc
  constructor
  · have htake : s.log.logCache.take (indices.length + 1) =
        s.log.logCache.take indices.length ++ [p] := by
      rw [List.take_add, hdrop]
      simp
    rw [List.length_append, List.length_singleton, htake, List.map_append, ← heq]
    rfl
  · intro t ht
    rcases List.mem_append.1 ht with ht | ht
    · exact hbefore t ht
    · rw [List.mem_singleton.1 ht]
      exact hlt

/-- `commit_lock` is released: what was visited is gone. -/
theorem Entries.unlock (h : Entries s) (hcalls : Calls s) {i : ι} {stop : Ts} {indices : List ℕ}
    (hpc : s.pc i = .visiting stop indices) (hend : s.log.nextSlot stop indices = none) :
    Entries (s.unlock i stop indices) := by
  have hcache := h.logCache_unlock hpc
  obtain ⟨deletedTs, hlog⟩ := unlock_log s i stop indices
  obtain ⟨new, hnew, hcases⟩ := unlock_pc s i stop indices
  refine h.of_drop ?_ hcache ?_ (fun j stop' indices' hj => ?_) (fun j hj => ?_) fun hc => .inl ?_
  · rw [hlog]
    exact h.placed.of_sublist List.filter_sublist rfl rfl rfl rfl rfl le_rfl
  · rw [System.unlock]
    split_ifs <;> rfl
  · rw [hnew] at hj
    by_cases hji : j = i
    · rw [hji, update_self] at hj
      rcases hcases with ⟨rfl, -⟩ | ⟨-, ⟨rfl, -⟩ | ⟨rfl, -⟩⟩ <;> cases hj
    · rw [update_of_ne hji] at hj
      have hheld := (hcalls.lock j stop' indices' hj).symm.trans (hcalls.lock i stop indices hpc)
      exact absurd (Option.some.inj hheld) hji
  · rw [hnew] at hj
    by_cases hji : j = i
    · rw [hji, update_self] at hj
      rcases hcases with ⟨rfl, -⟩ | ⟨rfl, ⟨rfl, rfl⟩ | ⟨rfl, -⟩⟩
      · cases hj
      · right
        rw [hcache]
        have hbefore := nextSlot_nil_eq_none h.placed.sorted hend
        refine List.eq_nil_iff_forall_not_mem.2 fun p hp => ?_
        exact absurd (top_le_iff.1 (hbefore p hp)) (WithTop.coe_ne_top)
      · cases hj
    · rw [update_of_ne hji] at hj
      exact .inl hj
  · rw [System.unlock] at hc
    split_ifs at hc <;> exact hc

omit [DecidableEq ι] in
/-- An entry is created. -/
theorem Entries.create (h : Entries s) (hcalls : Calls s) {ts size : ℕ} {b : Addr} {log : State}
    (hlock : s.commitLock = none) (hopen : s.closing = false) (hts : ∀ t ∈ s.latestTs, t < ts)
    (hc : Created s.log ts size b log) : Entries { s with log := log, latestTs := some ts } := by
  have hcache := h.logCache_create hts hc
  refine ⟨hc.placed h.placed, fun p hp => ?_, fun i stop indices hi => ?_, fun i hi => ?_,
    fun hcl => ?_⟩
  · simp only [hcache, List.mem_append, List.mem_singleton] at hp
    rcases hp with hp | rfl
    · obtain ⟨t, ht, hle⟩ := h.latest p hp
      exact ⟨ts, rfl, hle.trans (hts t ht).le⟩
    · exact ⟨ts, rfl, le_rfl⟩
  · have hheld := hcalls.lock i stop indices hi
    rw [hlock] at hheld
    cases hheld
  · rw [(hcalls.final i (by rw [hi]; rfl)).1] at hopen
    cases hopen
  · rw [hcalls.closed hcl] at hopen
    cases hopen

/-- **Every step keeps the entries.** -/
theorem Entries.step (h : Entries s) (hcalls : Calls s) (hstep : Stepped s a s') :
    Entries s' := by
  cases hstep with
  | create hlock hopen hts hc => exact h.create hcalls hlock hopen hts hc
  | call => exact h.goto h.placed rfl rfl rfl (by simp) (by simp) .inl
  | lock =>
    refine h.goto h.placed rfl rfl rfl (fun stop indices hj => ?_) (by simp) .inl
    obtain ⟨-, rfl⟩ := Pc.visiting.inj hj
    simp
  | @visit i stop indices p hpc hp =>
    obtain ⟨freed, hvisit⟩ := visit_eq s.log p.2
    simp only [hvisit]
    refine h.goto (h.placed.of_sublist (List.Sublist.refl _) rfl rfl rfl rfl rfl le_rfl) rfl rfl rfl
      (fun stop' indices' hj => ?_) (by simp) .inl
    obtain ⟨rfl, rfl⟩ := Pc.visiting.inj hj
    exact h.take_visit hpc hp
  | unlock hpc hend => exact h.unlock hcalls hpc hend
  | @cleanUp i hpc hlock =>
    obtain ⟨freed, hclean⟩ := cleanUp_eq s.log
    simp only [hclean]
    exact h.goto (h.placed.of_sublist (List.Sublist.refl _) rfl rfl rfl rfl rfl (Nat.zero_le _)) rfl
      rfl rfl (by simp) (by simp) fun _ => .inr (h.tail i hpc)

end SeqLog
end Sivfs
