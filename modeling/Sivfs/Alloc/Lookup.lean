/-
# Finding the chunk of an offset

`sivfs_free_block` gets an offset from userspace and looks it up in the boundary table: one
record a page, zero-filled when the page is first touched, with the chunk that starts in
the page.

A chunk of at least a page leaves room for one boundary a page, and then
`blocks_found` says that an allocated block is found at its start.  A smaller block can put
two boundaries on a page, and the second one overwrites the first.

Zero is a legal boundary offset, so a zero-filled record looks like one with a chunk that
starts at the page; `free_safe` says that this is the only way to follow the missing chunk.
-/

import Sivfs.Alloc.Machine

namespace Sivfs
namespace Alloc

variable {ι : Type*} [DecidableEq ι]

/-- The chunk that a free of an offset at a snapshot is to mark. -/
structure FreeTarget (a : Ainfo ι) (ts : Ts) (offset c : ℕ) : Prop where
  live : a.live c = true
  start : (a.chunk c).start = offset
  allocated : (a.chunk c).lastFreed.allocated = true
  visible : ((a.chunk c).lastFreed.ts : Ts) ≤ ts

namespace Rep

variable {a : Ainfo ι} {cs : List ℕ} {c w : ℕ} {R : Head ι → List ℕ} {ts : Ts} {offset : ℕ}

omit [DecidableEq ι] in
/-- An allocated chunk is found at its start. -/
theorem freeBlock_target (h : Rep a cs w R) (hc : FreeTarget a ts offset c) : ∃ a',
    Alloc.freeBlock ts offset a = some (a', some c) ∧
      a'.chunk = Function.update a.chunk c (a.chunk c).setFreeing := by
  obtain ⟨hlive, rfl, halloc, hts⟩ := hc
  have hcm := (h.tiled.live c).1 hlive
  obtain ⟨l, m, hl⟩ := List.append_of_mem hcm
  have hoff : (a.chunk c).start % pageSize ≠ sizeMax := by
    have := Nat.mod_lt (a.chunk c).start (show 0 < pageSize by decide)
    have : pageSize < sizeMax := by decide
    omega
  have hfree : (a.chunk c).isFree = false := by simp [Chunk.isFree, halloc]
  refine ⟨a.setChunk c (a.chunk c).setFreeing, ?_, rfl⟩
  simp only [Alloc.freeBlock, getPginfo_eq h.tiled hcm, pg_eq h.tiled hl, if_neg hoff, hfree,
    if_neg (not_lt.2 hts), ne_eq, not_true_eq_false, if_false, Bool.false_eq_true]

omit [DecidableEq ι] in
/-- A free follows a chunk that is missing only where the record of the page says that one
starts there. -/
theorem freeBlock_eq_none (a : Ainfo ι) (ts : Ts) (offset : ℕ) :
    Alloc.freeBlock ts offset a = none ↔ (a.pg offset).boundaryOffset = offset % pageSize ∧
      (a.pg offset).startsChunk = none := by
  have hoff : offset % pageSize ≠ sizeMax := by
    have := Nat.mod_lt offset (show 0 < pageSize by decide)
    have : pageSize < sizeMax := by decide
    omega
  simp only [Alloc.freeBlock, Ainfo.getPginfo_pg, Ainfo.getPginfo_chunk]
  by_cases hmax : (a.pg offset).boundaryOffset = sizeMax
  · simp [hmax, hoff.symm]
  · by_cases hb : (a.pg offset).boundaryOffset = offset % pageSize
    · cases hs : (a.pg offset).startsChunk with
      | none => simp [hb, hoff]
      | some c =>
        simp only [hb, if_neg hoff, ne_eq, not_true_eq_false, if_false, true_and, reduceCtorEq]
        split_ifs <;> simp
    · simp [hmax, hb]

omit [DecidableEq ι] in
/-- Where there is no chunk to mark, no chunk changes. -/
theorem freeBlock_other (h : Rep a cs w R) (hno : ∀ c, ¬FreeTarget a ts offset c)
    (hpg : (a.pg offset).boundaryOffset = offset % pageSize → (a.pg offset).startsChunk ≠ none) :
    ∃ a', Alloc.freeBlock ts offset a = some (a', none) ∧ a'.chunk = a.chunk := by
  cases hf : Alloc.freeBlock ts offset a with
  | none =>
    obtain ⟨hb, hs⟩ := (freeBlock_eq_none a ts offset).1 hf
    exact absurd hs (hpg hb)
  | some r =>
    obtain ⟨a', r⟩ := r
    obtain ⟨-, ⟨rfl, hchunk⟩ | ⟨c, hc, -, hstart, halloc, hts, -⟩⟩ := h.freeBlock hf
    · exact ⟨a', rfl, hchunk⟩
    · exact absurd ⟨(h.tiled.live c).2 (by simp [hc]), hstart, halloc, hts⟩ (hno c)

end Rep

/-! ### Granted blocks are found -/

/-- No two chunks start in one page, and a free of an allocated block at a snapshot that
covers it marks it. -/
structure Found (a : Ainfo ι) : Prop where
  page : ∀ c d, a.live c = true → a.live d = true →
    (a.chunk c).start / pageSize = (a.chunk d).start / pageSize → c = d
  free : ∀ c (ts : Ts), a.live c = true → (a.chunk c).lastFreed.allocated = true →
    ((a.chunk c).lastFreed.ts : Ts) ≤ ts → ∃ a',
    freeBlock ts (a.chunk c).start a = some (a', some c) ∧
      a'.chunk = Function.update a.chunk c (a.chunk c).setFreeing

/-- **Every allocated block can be found again** in every run of allocations of at least a
page with the other steps in any order. -/
theorem blocks_found {s : State ι}
    (h : (machine ι).ReachableWith (fun s act => Lawful s act ∧ Sound s act) s) :
    Found s.ainfo := by
  obtain ⟨cs, w, R, hi⟩ := Inv.of_reachable h
  refine ⟨fun c d hc hd hpage => ?_, fun c ts hc halloc hts => ?_⟩
  · exact hi.rep.tiled.page_inj ((hi.rep.tiled.live c).1 hc) ((hi.rep.tiled.live d).1 hd) hpage
  · exact hi.rep.freeBlock_target ⟨hc, rfl, halloc, hts⟩

/-- Requests that the allocator accepts, and nothing else. -/
def Requests (_ : State ι) : Act ι → Prop
  | .alloc _ size _ => 0 < size ∧ size % wordBytes = 0 ∧ size ≤ maxBlockAllocSize
  | _ => False

instance (s : State ι) : ∀ act, Decidable (Requests s act)
  | .alloc _ size _ => inferInstanceAs (Decidable (0 < size ∧ size % wordBytes = 0 ∧
      size ≤ maxBlockAllocSize))
  | .free _ _ | .commit _ _ | .abort _ | .hook _ | .update _ _ => inferInstanceAs (Decidable False)

theorem blocks_found_two : ∃ s,
    (machine Bool).ReachableWith (fun s act => Lawful s act ∧ Sound s act) s ∧
    (s.ainfo.chunk 1).start = 4096 ∧ Found s.ainfo := by
  have h : ((machine Bool).run (fun s act => decide (Lawful s act ∧ Sound s act)) fresh
      [.alloc false 4096 plenty, .alloc true 8192 plenty]).map (fun s => (s.ainfo.chunk 1).start) =
      some 4096 := by decide +kernel
  obtain ⟨s, hs, hlook⟩ := Option.map_eq_some_iff.1 h
  have hreach : (machine Bool).ReachableWith (fun s act => Lawful s act ∧ Sound s act) s :=
    Machine.ReachableWith.run (fun s act => of_decide_eq_true) (.init init_fresh) hs
  exact ⟨s, hreach, hlook, blocks_found hreach⟩

/-- A block of one word: the boundary behind it is recorded in the page of its start, and
a free of the block dooms the transaction. -/
theorem not_blocks_found_word : ∃ s, (machine Bool).ReachableWith Requests s ∧ ¬Found s.ainfo := by
  have h : ((machine Bool).run (fun s act => decide (Requests s act)) fresh
      [.alloc false 8 plenty]).map (fun s => (s.ainfo.live 0, s.ainfo.chunk 0,
        (freeBlock 0 0 s.ainfo).map Prod.snd)) =
      some (true, ⟨⟨0, true, false⟩, 0, 8⟩, some none) := by decide +kernel
  obtain ⟨s, hs, hlook⟩ := Option.map_eq_some_iff.1 h
  simp only [Prod.mk.injEq] at hlook
  obtain ⟨hlive, hchunk, hdoom⟩ := hlook
  refine ⟨s, Machine.ReachableWith.run (fun s act => of_decide_eq_true) (.init init_fresh) hs,
    fun hf => ?_⟩
  obtain ⟨a, ha, -⟩ := hf.free 0 0 hlive (by rw [hchunk]) (by rw [hchunk]; exact le_rfl)
  rw [hchunk] at ha
  rw [ha] at hdoom
  simp at hdoom

/-! ### A free of any offset -/

/-- `sivfs_free_block` of a thread where `sivfs_alloc_get_pginfo` may find no memory. -/
def State.freeBlock (s : State ι) (mem : Bool) (t : ι) (offset : ℕ) :
    Option (State ι × Option Errno) :=
  if s.ainfo.lacksPginfo mem offset then some (s, some .enomem)
  else (step s (.free t offset)).map fun s' => (s', none)

/-- A free marks the chunk it is to mark and puts it on the list of the thread, and
otherwise changes no chunk and dooms the transaction. -/
structure SafeFree (s : State ι) (mem : Bool) (t : ι) (offset : ℕ) : Prop where
  marks : ∀ c, FreeTarget s.ainfo (s.thread t).ts offset c → ∃ s',
    s.freeBlock mem t offset = some (s', none) ∧
      s'.ainfo.chunk = Function.update s.ainfo.chunk c (s.ainfo.chunk c).setFreeing ∧
      s'.thread = Function.update s.thread t { s.thread t with
        allocChunksToFree := c :: (s.thread t).allocChunksToFree }
  dooms : (∀ c, ¬FreeTarget s.ainfo (s.thread t).ts offset c) → ∃ s' e,
    s.freeBlock mem t offset = some (s', e) ∧ s'.ainfo.chunk = s.ainfo.chunk ∧
      s'.thread = Function.update s.thread t { s.thread t with shouldAbort := true }

/-- **A free of any offset is safe if and only if** the record of its page is there or can be
made, or the transaction is doomed already, and the record does not say that a chunk starts
at the offset where it has none. -/
theorem free_safe {s : State ι}
    (h : (machine ι).ReachableWith (fun s act => Lawful s act ∧ Sound s act) s) {t : ι}
    (hact : (s.thread t).phase = .active) (mem : Bool) (offset : ℕ) :
    SafeFree s mem t offset ↔
      (s.ainfo.lacksPginfo mem offset = true → (s.thread t).shouldAbort = true) ∧
      (s.ainfo.lacksPginfo mem offset = false →
        (s.ainfo.pg offset).boundaryOffset = offset % pageSize →
        (s.ainfo.pg offset).startsChunk ≠ none) := by
  obtain ⟨cs, w, R, hi⟩ := Inv.of_reachable h
  have hhas : ∀ c, FreeTarget s.ainfo (s.thread t).ts offset c →
      s.ainfo.lacksPginfo mem offset = false ∧ (s.ainfo.pg offset).startsChunk = some c := by
    intro c hc
    obtain ⟨l, m, hl⟩ := List.append_of_mem ((hi.rep.tiled.live c).1 hc.live)
    have hinfo := hi.rep.tiled.pginfo_eq hl
    have hpg := Rep.pg_eq hi.rep.tiled hl
    rw [hc.start] at hinfo hpg
    simp [Ainfo.lacksPginfo, hinfo, hpg]
  cases hlacks : s.ainfo.lacksPginfo mem offset with
  | true =>
    have hno : ∀ c, ¬FreeTarget s.ainfo (s.thread t).ts offset c := by
      intro c hc
      simp [(hhas c hc).1] at hlacks
    simp only [forall_const, Bool.true_eq_false, false_implies, and_true]
    constructor
    · intro hsafe
      obtain ⟨s', e, hfree, -, hthread⟩ := hsafe.dooms hno
      rw [State.freeBlock, if_pos hlacks, Option.some.injEq, Prod.mk.injEq] at hfree
      rw [← hfree.1] at hthread
      have := congrFun hthread t
      rw [Function.update_self] at this
      rw [this]
    · intro hdoomed
      refine ⟨fun c hc => absurd hc (hno c), fun _ => ⟨s, some .enomem, ?_, rfl, ?_⟩⟩
      · rw [State.freeBlock, if_pos hlacks]
      · rw [← hdoomed, Function.update_eq_self]
  | false =>
    have hstep : ∀ r, s.freeBlock mem t offset = r ↔
        (step s (.free t offset)).map (fun s' => (s', none)) = r := by
      intro r
      rw [State.freeBlock, if_neg (by simp [hlacks])]
    simp only [Bool.false_eq_true, false_implies, true_and, forall_const]
    constructor
    · intro hsafe hb hs
      have hnone := (Rep.freeBlock_eq_none s.ainfo (s.thread t).ts offset).2 ⟨hb, hs⟩
      have hno : ∀ c, ¬FreeTarget s.ainfo (s.thread t).ts offset c := by
        intro c hc
        simp [(hhas c hc).2] at hs
      obtain ⟨s', e, hfree, -⟩ := hsafe.dooms hno
      rw [hstep, step, if_pos hact, hnone] at hfree
      simp at hfree
    · intro hpg
      refine ⟨fun c hc => ?_, fun hno => ?_⟩
      · obtain ⟨a', hfree, hchunk⟩ := hi.rep.freeBlock_target hc
        obtain ⟨s', hs', hres⟩ : ∃ s', step s (.free t offset) = some s' ∧
            s'.ainfo.chunk = Function.update s.ainfo.chunk c (s.ainfo.chunk c).setFreeing ∧
            s'.thread = Function.update s.thread t { s.thread t with
              allocChunksToFree := c :: (s.thread t).allocChunksToFree } := by
          rw [step, if_pos hact, hfree]
          exact ⟨_, rfl, hchunk, rfl⟩
        exact ⟨s', (hstep _).2 (by rw [hs']; rfl), hres⟩
      · obtain ⟨a', hfree, hchunk⟩ := hi.rep.freeBlock_other hno hpg
        obtain ⟨s', hs', hres⟩ : ∃ s', step s (.free t offset) = some s' ∧
            s'.ainfo.chunk = s.ainfo.chunk ∧
            s'.thread = Function.update s.thread t { s.thread t with shouldAbort := true } := by
          rw [step, if_pos hact, hfree]
          exact ⟨_, rfl, hchunk, rfl⟩
        exact ⟨s', none, (hstep _).2 (by rw [hs']; rfl), hres⟩

/-- The second of two blocks is found in the state after them. -/
theorem free_safe_second : ∃ s : State Bool,
    (machine Bool).ReachableWith (fun s act => Lawful s act ∧ Sound s act) s ∧
    FreeTarget s.ainfo (s.thread false).ts 4096 1 ∧ SafeFree s true false 4096 := by
  have h : ((machine Bool).run (fun s act => decide (Lawful s act ∧ Sound s act)) fresh
      [.alloc false 4096 plenty, .alloc false 8192 plenty]).map (fun s =>
        (s.ainfo.live 1, s.ainfo.chunk 1, decide ((s.thread false).phase = .active),
          decide ((s.thread false).ts = 0), s.ainfo.pg 4096)) =
      some (true, ⟨⟨0, true, false⟩, 4096, 8192⟩, true, true, ⟨0, some 0, some 1⟩) := by
    decide +kernel
  obtain ⟨s, hs, hlook⟩ := Option.map_eq_some_iff.1 h
  simp only [Prod.mk.injEq, decide_eq_true_eq] at hlook
  obtain ⟨hlive, hchunk, hact, hts, hpg⟩ := hlook
  have hreach : (machine Bool).ReachableWith (fun s act => Lawful s act ∧ Sound s act) s :=
    Machine.ReachableWith.run (fun s act => of_decide_eq_true) (.init init_fresh) hs
  refine ⟨s, hreach, ⟨hlive, by rw [hchunk], by rw [hchunk], ?_⟩,
    (free_safe hreach hact true 4096).2 ⟨?_, ?_⟩⟩
  · rw [hchunk, hts]
    exact le_rfl
  · simp [Ainfo.lacksPginfo]
  · simp [hpg]

/-- The second page of a block of two pages: its record is made, and says that a chunk
starts there. -/
theorem not_free_safe_inside : ∃ s : State Bool,
    (machine Bool).ReachableWith (fun s act => Lawful s act ∧ Sound s act) s ∧
    (s.thread false).phase = .active ∧ s.freeBlock true false 4096 = none ∧
    ¬SafeFree s true false 4096 := by
  have h : ((machine Bool).run (fun s act => decide (Lawful s act ∧ Sound s act)) fresh
      [.alloc false 8192 plenty]).map (fun s => (decide ((s.thread false).phase = .active),
        (s.freeBlock true false 4096).isNone)) = some (true, true) := by decide +kernel
  obtain ⟨s, hs, hlook⟩ := Option.map_eq_some_iff.1 h
  simp only [Prod.mk.injEq, decide_eq_true_eq, Option.isNone_iff_eq_none] at hlook
  obtain ⟨hact, hnone⟩ := hlook
  refine ⟨s, Machine.ReachableWith.run (fun s act => of_decide_eq_true) (.init init_fresh) hs,
    hact, hnone, fun hsafe => ?_⟩
  by_cases hc : ∃ c, FreeTarget s.ainfo (s.thread false).ts 4096 c
  · obtain ⟨c, hc⟩ := hc
    obtain ⟨s', hs', -⟩ := hsafe.marks c hc
    simp [hnone] at hs'
  · obtain ⟨s', e, hs', -⟩ := hsafe.dooms fun c hcc => hc ⟨c, hcc⟩
    simp [hnone] at hs'

end Alloc
end Sivfs
