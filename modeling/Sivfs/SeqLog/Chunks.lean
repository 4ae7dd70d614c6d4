/-
# The chunks of the log

The chunks of the log are made one after the other, and the entries of `log_cache` lie in
them in the order of their timestamps.  `Laid` says so with a count `k`, of the chunks
whose first entry has been visited: the entries ahead lie in chunk `k - 1` up to the first
one of chunk `k`, and so on.  What has been freed are the chunks before `k - 1`
(`Chunked`).
-/

import Sivfs.SeqLog.Entries

open Function

namespace Sivfs
namespace SeqLog

open Call
open Commit (sizeofLogEntry sizeofPointer)

/-! ### The order of the entries -/

/-- The entries of `slots` lie in the chunks from `k - 1` to `n`, each chunk from `k` on
beginning with one that is marked as its first. -/
def Laid (logEntry : Addr → LogEntry) : ℕ → List (ℕ × Addr) → ℕ → Prop
  | k, [], n => k = n
  | k, p :: slots, n =>
    if (logEntry p.2).firstInChunk = true then p.2.chunk = k ∧ Laid logEntry (k + 1) slots n
    else p.2.chunk + 1 = k ∧ Laid logEntry k slots n

variable {logEntry logEntry' : Addr → LogEntry} {slots : List (ℕ × Addr)} {k n : ℕ}

/-- There are no more chunks than slots. -/
theorem Laid.le (h : Laid logEntry k slots n) : k ≤ n := by
  induction slots generalizing k with
  | nil => exact h.le
  | cons p slots ih =>
    simp only [Laid] at h
    split_ifs at h
    · have := ih h.2
      omega
    · exact ih h.2

/-- No entry lies in a chunk before `k - 1`. -/
theorem Laid.le_chunk (h : Laid logEntry k slots n) : ∀ p ∈ slots, k ≤ p.2.chunk + 1 := by
  induction slots generalizing k with
  | nil => simp
  | cons q slots ih =>
    intro p hp
    simp only [Laid] at h
    split_ifs at h
    · rcases List.mem_cons.1 hp with rfl | hp
      · omega
      · have := ih h.2 p hp
        omega
    · rcases List.mem_cons.1 hp with rfl | hp
      · omega
      · exact ih h.2 p hp

/-- Only the marks of first entries matter. -/
theorem Laid.congr (h : Laid logEntry k slots n)
    (he : ∀ p ∈ slots, (logEntry' p.2).firstInChunk = (logEntry p.2).firstInChunk) :
    Laid logEntry' k slots n := by
  induction slots generalizing k with
  | nil => exact h
  | cons p slots ih =>
    have hslots := fun q hq => he q (List.mem_cons_of_mem p hq)
    simp only [Laid, he p List.mem_cons_self] at h ⊢
    split_ifs at h ⊢
    · exact ⟨h.1, ih h.2 hslots⟩
    · exact ⟨h.1, ih h.2 hslots⟩

/-- An entry in a new chunk. -/
theorem Laid.append_first (h : Laid logEntry k slots n) {p : ℕ × Addr}
    (hfirst : (logEntry p.2).firstInChunk = true) (hp : p.2.chunk = n) :
    Laid logEntry k (slots ++ [p]) (n + 1) := by
  induction slots generalizing k with
  | nil =>
    simp only [Laid] at h
    simp [Laid, hfirst, hp, h]
  | cons q slots ih =>
    simp only [List.cons_append, Laid] at h ⊢
    split_ifs at h ⊢
    · exact ⟨h.1, ih h.2⟩
    · exact ⟨h.1, ih h.2⟩

/-- Another entry in the last chunk. -/
theorem Laid.append_more (h : Laid logEntry k slots n) {p : ℕ × Addr}
    (hmore : (logEntry p.2).firstInChunk = false) (hp : p.2.chunk + 1 = n) :
    Laid logEntry k (slots ++ [p]) n := by
  induction slots generalizing k with
  | nil =>
    simp only [Laid] at h
    simp [Laid, hmore, hp, h]
  | cons q slots ih =>
    simp only [List.cons_append, Laid] at h ⊢
    split_ifs at h ⊢
    · exact ⟨h.1, ih h.2⟩
    · exact ⟨h.1, ih h.2⟩

variable {ι : Type*} [DecidableEq ι] {s s' : System ι} {a : Act ι}

/-! ### The chunks -/

/-- The last of the chunks `0` to `n - 1`. -/
def lastChunk : ℕ → Option ℕ
  | 0 => none
  | n + 1 => some n

/-- The last chunk of `n`. -/
theorem lastChunk_eq_some {n c : ℕ} : lastChunk n = some c ↔ c + 1 = n := by
  cases n with
  | zero => simp [lastChunk]
  | succ n => simp [lastChunk, eq_comm]

/-- The chunks that were made, and which of them have been freed. -/
structure Chunked (s : System ι) : Prop where
  startPtr : s.log.masterLog.chunkStartPtr = lastChunk s.log.chunks
  word : ∀ c < s.log.chunks, s.log.word ⟨c, 0⟩ = lastChunk c
  first : ∀ p ∈ s.log.logCache, (s.log.logEntry p.2).firstInChunk = true →
    p.2.offset = sizeofPointer
  latest : ∀ a, s.log.masterLog.latest = some a → a.chunk + 1 = s.log.chunks
  freed : ∃ k, Laid s.log.logEntry k s.ahead s.log.chunks ∧ s.log.freed.Nodup ∧
    ∀ c, c ∈ s.log.freed ↔ c + 1 < k ∨ s.closed = true ∧ c < s.log.chunks

omit [DecidableEq ι] in
/-- A new entry, with the lock free. -/
theorem Chunked.create (h : Chunked s) (he : Entries s) (hlock : s.commitLock = none)
    (hclosed : s.closed = false) {ts size : ℕ} {a : Addr} {log : State}
    (hts : ∀ t ∈ s.latestTs, t < ts) (hc : Created s.log ts size a log) :
    Chunked { s with log := log, latestTs := some ts } := by
  have hcache := he.logCache_create hts hc
  have hsame : ∀ p ∈ s.log.logCache,
      (log.logEntry p.2).firstInChunk = (s.log.logEntry p.2).firstInChunk :=
    fun p hp => (hc.others p.2 (hc.ne he.placed hp)).2.2
  have hlast : a.chunk + 1 = log.chunks := by
    rcases hc.chunk with ⟨hchunk, hchunks, -⟩ | ⟨hstart, -, hchunks, -⟩
    · omega
    · rw [h.startPtr, lastChunk_eq_some] at hstart
      omega
  obtain ⟨k, hlaid, hnodup, hfreed⟩ := h.freed
  have hahead : s.ahead = s.log.logCache := by simp [System.ahead, System.visited, hlock]
  refine ⟨?_, fun c hlt => ?_, fun p hp hfirst => ?_, fun b hb => ?_, k, ?_, ?_, fun c => ?_⟩
  · rw [hc.startPtr, eq_comm, lastChunk_eq_some]
    exact hlast
  · rcases Nat.lt_or_ge c s.log.chunks with hold | hnew
    · rw [hc.word c hold, h.word c hold]
    · rcases hc.chunk with ⟨hchunk, hchunks, hword, -⟩ | ⟨-, -, hchunks, -⟩
      · obtain rfl : c = a.chunk := by
          have : c < log.chunks := hlt
          omega
        rw [hword, h.startPtr, hchunk]
      · have : c < log.chunks := hlt
        omega
  · simp only [hcache, List.mem_append, List.mem_singleton] at hp
    rcases hp with hp | rfl
    · exact h.first p hp (by rwa [← hsame p hp])
    · rcases hc.chunk with ⟨-, -, -, -, hoffset⟩ | ⟨-, -, -, hmore⟩
      · exact hoffset
      · rw [hmore] at hfirst
        cases hfirst
  · obtain rfl := Option.some.inj (hc.latest.symm.trans hb)
    exact hlast
  · have hlaid' : Laid log.logEntry k s.log.logCache s.log.chunks := by
      rw [hahead] at hlaid
      exact hlaid.congr hsame
    simp only [System.ahead, System.visited, hlock, Option.elim_none, List.length_nil,
      List.drop_zero, hcache]
    rcases hc.chunk with ⟨hchunk, hchunks, -, hfirst, -⟩ | ⟨-, -, hchunks, hmore⟩
    · rw [hchunks]
      exact hlaid'.append_first hfirst hchunk
    · rw [hchunks]
      exact hlaid'.append_more hmore (hlast.trans hchunks)
  · rw [hc.freed]
    exact hnodup
  · rw [hc.freed]
    simpa [hclosed] using hfreed c

omit [DecidableEq ι] in
/-- Steps that free nothing and leave the order of the slots. -/
theorem Chunked.of_ahead {s' : System ι} (h : Chunked s) (m : ℕ) (deletedTs : Ts)
    (hlog : s'.log = { s.log with
      logCache := s.log.logCache.drop m, masterLogDeletedTs := deletedTs })
    (hahead : s'.ahead = s.ahead) (hclosed : s'.closed = s.closed) : Chunked s' := by
  obtain ⟨k, hlaid, hnodup, hfreed⟩ := h.freed
  refine ⟨by rw [hlog]; exact h.startPtr, by rw [hlog]; exact h.word, fun p hp => ?_,
    by rw [hlog]; exact h.latest, k, ?_, ?_, ?_⟩
  · rw [hlog] at hp ⊢
    exact h.first p (List.drop_subset m _ hp)
  · rw [hahead, hlog]
    exact hlaid
  · rw [hlog]
    exact hnodup
  · rw [hlog, hclosed]
    exact hfreed

omit [DecidableEq ι] in
/-- **The first entry of a chunk frees the chunk before it, which has not been freed.** -/
theorem Chunked.visit {s' : System ι} (h : Chunked s) (he : Entries s) {p : ℕ × Addr}
    (slots : List (ℕ × Addr)) (hahead : s.ahead = p :: slots) (hclosed : s.closed = false)
    (hlog : s'.log = s.log.visit p.2) (hslots : s'.ahead = slots) (hsame : s'.closed = s.closed) :
    Chunked s' := by
  obtain ⟨freed, hvisit⟩ := visit_eq s.log p.2
  obtain ⟨k, hlaid, hnodup, hfreed⟩ := h.freed
  have hmem : p ∈ s.log.logCache := by
    refine List.drop_subset s.visited.length _ ?_
    rw [← System.ahead, hahead]
    exact List.mem_cons_self
  have hrest : ∃ k', Laid s.log.logEntry k' slots s.log.chunks ∧ (s.log.visit p.2).freed.Nodup ∧
      ∀ c, c ∈ (s.log.visit p.2).freed ↔ c + 1 < k' := by
    simp only [hclosed, Bool.false_eq_true, false_and, or_false] at hfreed
    rw [hahead] at hlaid
    simp only [Laid] at hlaid
    split_ifs at hlaid with hfirst
    · obtain ⟨hchunk, hlaid⟩ := hlaid
      have hword : s.log.word ⟨p.2.chunk, p.2.offset - sizeofPointer⟩ = lastChunk k := by
        rw [h.first p hmem hfirst, Nat.sub_self, h.word _ (he.placed.inChunk p hmem).chunk, hchunk]
      refine ⟨k + 1, hlaid, ?_⟩
      rw [State.visit, if_pos hfirst, hword]
      cases k with
      | zero => exact ⟨hnodup, fun c => (hfreed c).trans (by omega)⟩
      | succ k =>
        refine ⟨List.nodup_cons.2 ⟨fun hk => ?_, hnodup⟩, fun c => ?_⟩
        · exact absurd ((hfreed k).1 hk) (by omega)
        · rw [lastChunk, State.kfree, List.mem_cons, hfreed c]
          omega
    · refine ⟨k, hlaid.2, ?_⟩
      rw [State.visit, if_neg hfirst]
      exact ⟨hnodup, hfreed⟩
  obtain ⟨k', hlaid', hnodup', hfreed'⟩ := hrest
  rw [hvisit] at hlog hnodup' hfreed'
  refine ⟨by rw [hlog]; exact h.startPtr, by rw [hlog]; exact h.word, by rw [hlog]; exact h.first,
    by rw [hlog]; exact h.latest, k', ?_, ?_, ?_⟩
  · rw [hslots, hlog]
    exact hlaid'
  · rw [hlog]
    exact hnodup'
  · rw [hlog, hsame, hclosed]
    simpa using hfreed'

omit [DecidableEq ι] in
/-- **The last chunk is freed when no entry is left.** -/
theorem Chunked.cleanUp {s' : System ι} (h : Chunked s) (hclosed : s.closed = false)
    (hempty : s.log.logCache = []) {deletedTs : Ts}
    (hlog : s'.log = { s.log.cleanUp with masterLogDeletedTs := deletedTs })
    (hclosed' : s'.closed = true) : Chunked s' := by
  obtain ⟨freed, hclean⟩ := cleanUp_eq s.log
  obtain ⟨k, hlaid, hnodup, hfreed⟩ := h.freed
  have hall : (s.log.cleanUp).freed.Nodup ∧
      ∀ c, c ∈ (s.log.cleanUp).freed ↔ c < s.log.chunks := by
    have hk : k = s.log.chunks := by simpa [System.ahead, hempty, Laid] using hlaid
    simp only [hclosed, Bool.false_eq_true, false_and, or_false, hk] at hfreed
    rw [State.cleanUp, h.startPtr]
    cases hn : s.log.chunks with
    | zero =>
      rw [hn] at hfreed
      exact ⟨hnodup, fun c => (hfreed c).trans (by omega)⟩
    | succ n =>
      rw [hn] at hfreed
      refine ⟨List.nodup_cons.2 ⟨fun hmem => ?_, hnodup⟩, fun c => ?_⟩
      · exact absurd ((hfreed n).1 hmem) (by omega)
      · simp only [lastChunk, State.kfree, List.mem_cons, hfreed c]
        omega
  obtain ⟨hnodup', hfreed'⟩ := hall
  rw [hclean] at hlog hnodup' hfreed'
  refine ⟨by rw [hlog]; exact h.startPtr, by rw [hlog]; exact h.word, by rw [hlog]; exact h.first,
    by rw [hlog]; exact h.latest, s.log.chunks, ?_, by rw [hlog]; exact hnodup', fun c => ?_⟩
  · simp only [System.ahead, hlog, hempty, List.drop_nil, Laid]
  · rw [hlog, hclosed', hfreed' c]
    simp only [true_and]
    omega

/-- The entries stay in the order of the chunks. -/
theorem Chunked.step (h : Chunked s) (he : Entries s) (hcalls : Calls s) (hstep : Stepped s a s') :
    Chunked s' := by
  cases hstep with
  | create hlock hopen hts hc =>
    refine h.create he hlock ?_ hts hc
    rw [Bool.eq_false_iff]
    intro hclosed
    rw [hcalls.closed hclosed] at hopen
    cases hopen
  | @call i stop hpc hopen hstop =>
    refine h.of_ahead 0 s.log.masterLogDeletedTs rfl ?_ rfl
    simp only [System.ahead, System.visited]
    rcases s.commitLock with _ | j
    · rfl
    · by_cases hji : j = i
      · simp [hji, hpc, Pc.indices]
      · simp [update_of_ne hji]
  | @lock i stop hpc hlock =>
    refine h.of_ahead 0 s.log.masterLogDeletedTs rfl ?_ rfl
    simp [System.ahead, System.visited, hlock, Pc.indices]
  | @visit i stop indices p hpc hp =>
    have hlock := hcalls.lock i stop indices hpc
    obtain ⟨-, hdrop⟩ := nextSlot_eq_some hp
    have hclosed : s.closed = false := by
      rw [Bool.eq_false_iff]
      intro hclosed
      rw [he.closed hclosed, List.drop_nil] at hdrop
      cases hdrop
    obtain ⟨freed, hvisit⟩ := visit_eq s.log p.2
    refine h.visit he (s.log.logCache.drop (indices.length + 1)) ?_ hclosed rfl ?_ rfl
    · simpa [System.ahead, System.visited, hlock, hpc, Pc.indices] using hdrop
    · simp [System.ahead, System.visited, hlock, hvisit, Pc.indices]
  | @unlock i stop indices hpc hend =>
    have hlock := hcalls.lock i stop indices hpc
    have hcache := he.logCache_unlock hpc
    obtain ⟨deletedTs, hlog⟩ := unlock_log s i stop indices
    have hfree : (s.unlock i stop indices).commitLock = none ∧
        (s.unlock i stop indices).closed = s.closed := by
      rw [System.unlock]
      split_ifs <;> exact ⟨rfl, rfl⟩
    refine h.of_ahead indices.length deletedTs ?_ ?_ hfree.2
    · rw [← hcache, hlog]
      rfl
    · simp only [System.ahead, System.visited, hfree.1, hlock, hcache, hpc, Pc.indices,
        Option.elim_none, Option.elim_some, List.length_nil, List.drop_zero]
  | @cleanUp i hpc hlock =>
    exact h.cleanUp (hcalls.final i (by rw [hpc]; rfl)).2 (he.tail i hpc) rfl rfl

/-! ### Every run -/

/-- The lock is held by a thread that is in a turn of its loop. -/
def Held (s : System ι) : Prop :=
  ∀ i, s.commitLock = some i → ∃ stop indices, s.pc i = .visiting stop indices

/-- Who has visited entries has the lock. -/
theorem Held.step (h : Held s) (hstep : Stepped s a s') : Held s' := by
  cases hstep with
  | create => exact h
  | @call i stop hpc =>
    intro j hj
    obtain ⟨stop', indices, hpc'⟩ := h j hj
    have hji : j ≠ i := by
      rintro rfl
      simp [hpc] at hpc'
    exact ⟨stop', indices, by simpa [update_of_ne hji] using hpc'⟩
  | @lock i stop =>
    intro j hj
    obtain rfl := Option.some.inj hj
    exact ⟨stop, [], update_self ..⟩
  | @visit i stop indices p hpc =>
    intro j hj
    by_cases hji : j = i
    · exact ⟨stop, indices ++ [p.1], by simp [hji]⟩
    · simpa [update_of_ne hji] using h j hj
  | @unlock i stop indices =>
    intro j hj
    rw [System.unlock] at hj
    split_ifs at hj
    cases hj
  | cleanUp hpc hlock =>
    intro j hj
    cases hlock.symm.trans hj

/-- The invariants of the log. -/
structure Inv (s : System ι) : Prop where
  calls : Calls s
  held : Held s
  entries : Entries s
  chunked : Chunked s

/-- All of it holds in every state. -/
theorem inv (h : (logMachine ι).Reachable s) : Inv s := by
  refine h.invariant (I := Inv) (fun s hs => ?_) fun s a s' _ hi hstep => ?_
  · obtain ⟨hlog, hlock, hpc, -, hclosing, hclosed⟩ := hs
    have hstop : ∀ i stop, (s.pc i).stop ≠ some stop := by simp [hpc, Pc.stop]
    have hheld : Held s := fun i hi => by simp [hlock] at hi
    refine ⟨⟨fun i stop indices hi => ?_, fun i stop hi => absurd hi (hstop i stop),
      fun i hi => absurd hi (hstop i _), fun i j hi => absurd hi (hstop i _), fun hc => ?_⟩, hheld,
      ⟨?_, fun p hp => ?_, fun i stop indices hi => ?_, fun i hi => ?_, fun hc => ?_⟩,
      ⟨?_, fun c hc => ?_, fun p hp => ?_, fun b hb => ?_, 0, ?_, ?_, fun c => ?_⟩⟩
    · simp [hpc] at hi
    · simp [hclosed] at hc
    · rw [hlog]
      exact empty_wf.toPlaced
    · simp [hlog, State.empty] at hp
    · simp [hpc] at hi
    · simp [hpc] at hi
    · simp [hclosed] at hc
    · simp [hlog, State.empty, lastChunk]
    · simp [hlog, State.empty] at hc
    · simp [hlog, State.empty] at hp
    · simp [hlog, State.empty] at hb
    · simp [System.ahead, hlog, State.empty, Laid]
    · simp [hlog, State.empty]
    · simp [hlog, hclosed, State.empty]
  · have hstep := stepped hi.entries.placed hstep
    exact ⟨hi.calls.step hstep, hi.held.step hstep, hi.entries.step hi.calls hstep,
      hi.chunked.step hi.entries hi.calls hstep⟩

end SeqLog
end Sivfs
