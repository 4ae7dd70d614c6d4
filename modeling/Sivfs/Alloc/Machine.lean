/-
# Transactions that allocate and free

The machine of the block allocator of one file: threads allocate and free blocks, commit
and abort, and each hook of `sivfs_allocation_on_commit` does one chunk at a time, so that
the hooks of several threads interleave with everything else.

| step | source |
| --- | --- |
| `alloc`, `free` | `sivfs_alloc_block`, `sivfs_free_block` |
| `commit` | the commit is published, the hook has not begun |
| `abort` | the hook begins to roll back |
| `hook` | one round of a loop of the hook |
| `update` | `state->ts` is set |

A transaction without writes commits with `SIVFS_INVALID_TS`.  `owner` and `freedAt` are
history: the transaction that allocated a chunk and has not ended, and the latest commit
that freed a byte.

`blocks_wellFormed` says that the chunks, the boundary table and `bestfit_list` agree in
every run that keeps offsets below `2^64` and releases no chunk that is still on a list.
The second condition can fail: a commit is published before its hook takes the chunks off
`allocated_chunks`, and a thread that sees the commit may free them.
-/

import Sivfs.Alloc.Blocks
import Sivfs.Lib.Machine

namespace Sivfs
namespace Alloc

/-! ### The machine -/

/-- Where a thread is in `sivfs_allocation_on_commit`. -/
inductive Phase where
  /-- In a transaction. -/
  | active
  /-- The allocated list is cleared after a commit. -/
  | clearing (commitTs : Ts)
  /-- The freed chunks are released after a commit. -/
  | releasing (commitTs : Ts)
  /-- The frees are undone after an abort. -/
  | resetting
  /-- The allocated chunks are released after an abort. -/
  | unrolling
  deriving DecidableEq

/-- The fields of `struct sivfs_state` the allocator uses. -/
structure Thread where
  ts : Ts
  shouldAbort : Bool
  allocChunksToFree : List ℕ
  phase : Phase

/-- The allocator of a file, the threads and the history. -/
structure State (ι : Type*) where
  ainfo : Ainfo ι
  thread : ι → Thread
  masterTs : ℕ
  /-- The thread whose unfinished transaction allocated a chunk. -/
  owner : ℕ → Option ι
  /-- The latest commit that freed a byte, `0` if none did. -/
  freedAt : ℕ → ℕ

/-- What happens. -/
inductive Act (ι : Type*) where
  | alloc (t : ι) (size : ℕ) (mem : Memory)
  | free (t : ι) (offset : ℕ)
  | commit (t : ι) (writes : Bool)
  | abort (t : ι)
  | hook (t : ι)
  | update (t : ι) (ts : Ts)

variable {ι : Type*} [DecidableEq ι]

namespace State

variable (s : State ι) (t : ι)

/-- The state with another thread. -/
def setThread (th : Thread) : State ι := { s with thread := Function.update s.thread t th }

/-- The thread goes on to a phase. -/
def setPhase (p : Phase) : State ι := s.setThread t { s.thread t with phase := p }

omit [DecidableEq ι] in
/-- The commit at `ts` freed the bytes of chunk `c`. -/
def markFreed (c : ℕ) : Ts → ℕ → ℕ
  | ⊤ => s.freedAt
  | (ts : ℕ) => fun b =>
    if (s.ainfo.chunk c).start ≤ b ∧ b < (s.ainfo.chunk c).start + (s.ainfo.chunk c).size then
      max (s.freedAt b) ts
    else s.freedAt b

end State

/-- One round of the loop over `allocated_chunks` in `_sivfs_allocation_on_commit`. -/
def clearStep (s : State ι) (t : ι) (commitTs : Ts) : Option (State ι) :=
  match s.ainfo.links.next (.head (.allocated t)) with
  | some (.item c) => (s.ainfo.links.del (.item c)).map fun L =>
      { s with ainfo := { s.ainfo with links := L } }
  | some (.head (.allocated u)) => if u = t then some (s.setPhase t (.releasing commitTs)) else none
  | _ => none

/-- One round of the loop over `alloc_chunks_to_free` in
`_sivfs_allocation_on_commit`. -/
def releaseStep (s : State ι) (t : ι) (commitTs : Ts) : Option (State ι) :=
  match (s.thread t).allocChunksToFree with
  | [] => some (s.setPhase t .active)
  | c :: rest => (releaseBlock c commitTs s.ainfo).map fun a =>
      { s.setThread t { s.thread t with allocChunksToFree := rest } with
        ainfo := a
        freedAt := s.markFreed c commitTs }

/-- One round of the loop over `alloc_chunks_to_free` in
`_sivfs_allocation_on_abort`. -/
def resetStep (s : State ι) (t : ι) : Option (State ι) :=
  match (s.thread t).allocChunksToFree with
  | [] => some (s.setPhase t .unrolling)
  | c :: rest => some { s.setThread t { s.thread t with allocChunksToFree := rest } with
      ainfo := s.ainfo.setChunk c (s.ainfo.chunk c).abortFree }

/-- One round of the loop over `allocated_chunks` in `_sivfs_allocation_on_abort`. -/
def unrollStep (s : State ι) (t : ι) : Option (State ι) :=
  match s.ainfo.links.next (.head (.allocated t)) with
  | some (.item c) => (s.ainfo.links.del (.item c)).bind fun L =>
      (releaseBlock c invalidTs { s.ainfo with links := L }).map fun a =>
        { s with ainfo := a, owner := Function.update s.owner c none }
  | some (.head (.allocated u)) => if u = t then some (s.setPhase t .active) else none
  | _ => none

/-- One step. -/
def step (s : State ι) : Act ι → Option (State ι)
  | .alloc t size mem =>
    if (s.thread t).phase = .active then
      (allocBlock mem t (s.thread t).ts size s.ainfo).map fun r =>
        match r.2 with
        | .error _ => { s with ainfo := r.1 }
        | .ok c => { s with ainfo := r.1, owner := Function.update s.owner c (some t) }
    else none
  | .free t offset =>
    if (s.thread t).phase = .active then
      (freeBlock (s.thread t).ts offset s.ainfo).map fun r =>
        match r.2 with
        | none => { s.setThread t { s.thread t with shouldAbort := true } with ainfo := r.1 }
        | some c => { s.setThread t { s.thread t with
            allocChunksToFree := c :: (s.thread t).allocChunksToFree } with ainfo := r.1 }
    else none
  | .commit t writes =>
    if (s.thread t).phase = .active ∧ (s.thread t).shouldAbort = false then
      let commitTs : Ts := if writes then ((s.masterTs + 1 : ℕ) : Ts) else invalidTs
      some { s.setPhase t (.clearing commitTs) with
        masterTs := if writes then s.masterTs + 1 else s.masterTs
        owner := fun c => if s.owner c = some t then none else s.owner c }
    else none
  | .abort t =>
    if (s.thread t).phase = .active then
      some (s.setThread t { s.thread t with shouldAbort := false, phase := .resetting })
    else none
  | .hook t =>
    match (s.thread t).phase with
    | .active => none
    | .clearing commitTs => clearStep s t commitTs
    | .releasing commitTs => releaseStep s t commitTs
    | .resetting => resetStep s t
    | .unrolling => unrollStep s t
  | .update t ts =>
    if (s.thread t).phase = .active then some (s.setThread t { s.thread t with ts := ts }) else none

omit [DecidableEq ι] in
/-- A thread that did not allocate or free anything yet. -/
structure Thread.Fresh (th : Thread) : Prop where
  shouldAbort : th.shouldAbort = false
  toFree : th.allocChunksToFree = []
  phase : th.phase = .active

/-- A fresh file. -/
structure Init (s : State ι) : Prop where
  ainfo : s.ainfo = Ainfo.recover
  threads : ∀ t, (s.thread t).Fresh
  owner : ∀ c, s.owner c = none
  freedAt : ∀ b, s.freedAt b = 0

variable (ι) in
/-- Allocations and frees of all threads, and the rounds of their hooks. -/
def machine : Machine (State ι) (Act ι) := ⟨Init, step⟩

/-- What is asked of the callers: blocks of at least a page, as the library asks for them,
and no free of a block that another unfinished transaction allocated. -/
def Lawful (s : State ι) : Act ι → Prop
  | .alloc _ size _ => pageSize ≤ size
  | .free t offset => ∀ c ∈ (s.ainfo.pg offset).startsChunk, (s.ainfo.chunk c).start = offset →
      s.owner c = none ∨ s.owner c = some t
  | _ => True

instance (s : State ι) : ∀ act, Decidable (Lawful s act)
  | .alloc _ _ _ => inferInstanceAs (Decidable (_ ≤ _))
  | .free t offset => inferInstanceAs (Decidable (∀ c ∈ (s.ainfo.pg offset).startsChunk,
      (s.ainfo.chunk c).start = offset → s.owner c = none ∨ s.owner c = some t))
  | .commit _ _ | .abort _ | .hook _ | .update _ _ => inferInstanceAs (Decidable True)

/-- The chunk that the next round of a hook releases after a commit. -/
def State.toRelease (s : State ι) (t : ι) : Option ℕ :=
  match (s.thread t).phase with
  | .releasing _ => (s.thread t).allocChunksToFree.head?
  | _ => none

/-- Allocations end below `2^64`, and a chunk that is released after a commit is on no
list. -/
def Sound (s : State ι) : Act ι → Prop
  | .alloc t size _ => FitsAlloc s.ainfo (s.thread t).ts size
  | .hook t => ∀ c ∈ s.toRelease t, s.ainfo.links.next (.item c) = none
  | _ => True

instance (s : State ι) : ∀ act, Decidable (Sound s act)
  | .alloc t size _ => inferInstanceAs (Decidable (FitsAlloc s.ainfo (s.thread t).ts size))
  | .hook t => inferInstanceAs (Decidable (∀ c ∈ s.toRelease t,
      s.ainfo.links.next (.item c) = none))
  | .free _ _ | .commit _ _ | .abort _ | .update _ _ => inferInstanceAs (Decidable True)

/-! ### The invariant -/

namespace Phase

/-- The transaction of the thread is not published. -/
def Private : Phase → Prop
  | clearing _ => False
  | releasing _ => False
  | _ => True

end Phase

/-- The chunks `cs` and the wilderness `w` tile the file, `R` are the lists, and the lists
of the threads hold busy chunks, one thread's list each. -/
structure Inv (s : State ι) (cs : List ℕ) (w : ℕ) (R : Head ι → List ℕ) : Prop where
  rep : Rep s.ainfo cs w R
  toFree : ∀ t, ∀ c ∈ (s.thread t).allocChunksToFree, c ∈ cs ∧
    (s.ainfo.chunk c).lastFreed.allocated = false ∧ (s.ainfo.chunk c).lastFreed.freeing = true
  nodup : ∀ t, (s.thread t).allocChunksToFree.Nodup
  disjoint : ∀ t u, ∀ c ∈ (s.thread t).allocChunksToFree, c ∈ (s.thread u).allocChunksToFree →
    t = u
  owned : ∀ t, (s.thread t).phase.Private → ∀ c ∈ R (.allocated t), s.owner c = some t
  cross : ∀ t, (s.thread t).phase.Private → ∀ c ∈ R (.allocated t), ∀ u,
    c ∈ (s.thread u).allocChunksToFree → t = u
  releasing : ∀ t ts, (s.thread t).phase = .releasing ts → R (.allocated t) = []
  unrolling : ∀ t, (s.thread t).phase = .unrolling → (s.thread t).allocChunksToFree = []

/-- The thread that takes a step. -/
def Act.thread : Act ι → ι
  | .alloc t _ _ | .free t _ | .commit t _ | .abort t | .hook t | .update t _ => t

/-- What a step of thread `t` does to the lists of allocated chunks: those of the other
threads stay, and a chunk that comes onto its own is to be freed by nobody. -/
structure Moves (s : State ι) (t : ι) (R R' : Head ι → List ℕ) : Prop where
  others : ∀ u, u ≠ t → R' (.allocated u) = R (.allocated u)
  own : ∀ c ∈ R' (.allocated t), c ∈ R (.allocated t) ∨ ∀ v, c ∉ (s.thread v).allocChunksToFree

omit [DecidableEq ι] in
/-- Nothing is allocated. -/
theorem Moves.refl (s : State ι) (t : ι) (R : Head ι → List ℕ) : Moves s t R R :=
  ⟨fun _ _ => rfl, fun _ hc => .inl hc⟩

omit [DecidableEq ι] in
/-- The lists of allocated chunks are what matters. -/
theorem Moves.of_eq {s : State ι} {R R' : Head ι → List ℕ} (t : ι)
    (h : ∀ u, R' (.allocated u) = R (.allocated u)) : Moves s t R R' :=
  ⟨fun u _ => h u, fun _ hc => .inl (h t ▸ hc)⟩

/-- The first chunk of the list of thread `t` is taken off it. -/
theorem Moves.drop {s : State ι} {t : ι} {R : Head ι → List ℕ} {c : ℕ} {l : List ℕ}
    (hl : R (.allocated t) = c :: l) : Moves s t R (Function.update R (.allocated t) l) where
  others := fun u hu => Function.update_of_ne (by simpa using hu) _ _
  own := fun x hx => by
    rw [Function.update_self] at hx
    exact .inl (by simp [hl, hx])

omit [DecidableEq ι] in
/-- One after the other. -/
theorem Moves.trans {s : State ι} {t : ι} {R R' R'' : Head ι → List ℕ} (h : Moves s t R R')
    (h' : Moves s t R' R'') : Moves s t R R'' where
  others := fun u hu => (h'.others u hu).trans (h.others u hu)
  own := fun c hc => (h'.own c hc).elim (h.own c) .inr

namespace Inv

variable {s s' : State ι} {cs cs' : List ℕ} {c w w' : ℕ} {R R' : Head ι → List ℕ} {t u : ι}

omit [DecidableEq ι] in
/-- What is to be freed is still allocated. -/
theorem toFree_busy (h : Inv s cs w R) (hc : c ∈ (s.thread t).allocChunksToFree) :
    (s.ainfo.chunk c).busy = true := by
  simp [Chunk.busy, (h.toFree t c hc).2.2]

omit [DecidableEq ι] in
/-- Whatever a step does to the allocator, the busy chunks of the lists stay. -/
theorem setAinfo (h : Inv s cs w R) {a : Ainfo ι} {owner : ℕ → Option ι} {freedAt : ℕ → ℕ}
    (hrep : Rep a cs' w' R')
    (hkeep : ∀ t, ∀ c ∈ (s.thread t).allocChunksToFree, c ∈ cs' ∧
      (a.chunk c).lastFreed = (s.ainfo.chunk c).lastFreed)
    (hheld : ∀ t, ∀ c ∈ R' (.allocated t), c ∈ R (.allocated t) ∧ owner c = s.owner c ∨
      owner c = some t ∧ (∀ u, c ∉ (s.thread u).allocChunksToFree) ∧ (s.thread t).phase = .active) :
    Inv { s with ainfo := a, owner := owner, freedAt := freedAt } cs' w' R' where
  rep := hrep
  toFree := fun t c hc => by
    obtain ⟨hcs, hflags⟩ := hkeep t c hc
    exact ⟨hcs, by rw [hflags]; exact (h.toFree t c hc).2⟩
  nodup := h.nodup
  disjoint := h.disjoint
  owned := fun t hp c hc => by
    rcases hheld t c hc with ⟨hc, ho⟩ | ⟨ho, -⟩
    · exact ho.trans (h.owned t hp c hc)
    · exact ho
  cross := fun t hp c hc u hu => by
    rcases hheld t c hc with ⟨hc, -⟩ | ⟨-, hfree, -⟩
    · exact h.cross t hp c hc u hu
    · exact absurd hu (hfree u)
  releasing := fun t ts hp => by
    rw [List.eq_nil_iff_forall_not_mem]
    intro c hc
    rcases hheld t c hc with ⟨hc, -⟩ | ⟨-, -, hact⟩
    · simp [h.releasing t ts hp] at hc
    · simp [hact] at hp
  unrolling := h.unrolling

/-- A thread moves on, with its list of chunks to free. -/
theorem setThread (h : Inv s cs w R) {th : Thread} {masterTs : ℕ} {owner : ℕ → Option ι}
    (hsub : th.allocChunksToFree.Sublist (s.thread t).allocChunksToFree)
    (howner : ∀ u, (Function.update s.thread t th u).phase.Private → R (.allocated u) = [] ∨
      (s.thread u).phase.Private ∧ ∀ c, s.owner c = some u → owner c = some u)
    (hrel : ∀ ts, th.phase = .releasing ts → R (.allocated t) = [])
    (hunr : th.phase = .unrolling → th.allocChunksToFree = []) :
    Inv { s.setThread t th with masterTs := masterTs, owner := owner } cs w R := by
  have hlist : ∀ u, ((Function.update s.thread t th) u).allocChunksToFree.Sublist
      (s.thread u).allocChunksToFree := by
    intro u
    by_cases hu : u = t
    · subst hu
      simpa using hsub
    · rw [Function.update_of_ne hu]
  refine ⟨h.rep, fun u c hc => h.toFree u c ((hlist u).subset hc),
    fun u => (hlist u).nodup (h.nodup u),
    fun u v c hu hv => h.disjoint u v c ((hlist u).subset hu) ((hlist v).subset hv),
    fun u hp c hc => ?_, fun u hp c hc v hv => ?_, fun u ts hp => ?_, fun u hp => ?_⟩
  · rcases howner u hp with hnil | ⟨hp, ho⟩
    · simp [hnil] at hc
    · exact ho c (h.owned u hp c hc)
  · rcases howner u hp with hnil | ⟨hp, -⟩
    · simp [hnil] at hc
    · exact h.cross u hp c hc v ((hlist v).subset hv)
  · by_cases hu : u = t
    · subst hu
      exact hrel ts (by simpa [State.setThread] using hp)
    · exact h.releasing u ts (by simpa [State.setThread, hu] using hp)
  · by_cases hu : u = t
    · subst hu
      simpa [State.setThread] using hunr (by simpa [State.setThread] using hp)
    · simpa [State.setThread, hu] using h.unrolling u (by simpa [State.setThread, hu] using hp)

/-! ### Steps of a transaction -/

theorem alloc (h : Inv s cs w R) {size : ℕ} {mem : Memory} (hsize : pageSize ≤ size)
    (hfits : FitsAlloc s.ainfo (s.thread t).ts size)
    (hstep : step s (.alloc t size mem) = some s') :
    ∃ cs' w' R', Inv s' cs' w' R' ∧ Moves s t R R' := by
  rw [step] at hstep
  split_ifs at hstep with hact
  obtain ⟨a, r, halloc, hres⟩ := h.rep.allocBlock mem t (s.thread t).ts hsize hfits
  rw [halloc, Option.map_some, Option.some.injEq] at hstep
  subst hstep
  rcases hres with ⟨e, rfl, hrep, hchunk⟩ | ⟨c, cs', w', R', rfl, hg, -⟩
  · exact ⟨cs, w, R, h.setAinfo hrep (fun u c hc => ⟨(h.toFree u c hc).1, by rw [hchunk]⟩)
      fun u c hc => .inl ⟨hc, rfl⟩, .refl _ _ _⟩
  · have hnot : ∀ u, c ∉ (s.thread u).allocChunksToFree := by
      intro u hc
      exact absurd (h.toFree_busy hc) (by simp [hg.free])
    have hheld : ∀ u, c ∉ R (.allocated u) := by
      intro u hc
      exact absurd (h.rep.held u c hc).2 (by simp [hg.free])
    refine ⟨cs', w', R', h.setAinfo hg.rep (fun u x hx => ?_) fun u x hx => ?_, fun u hu => ?_,
      fun x hx => ?_⟩
    · have hxc : x ≠ c := fun e => hnot u (e ▸ hx)
      have hxcs := (h.toFree u x hx).1
      exact ⟨hg.sub x hxcs, by rw [hg.keep x (by simp [hxcs]) hxc]⟩
    · rw [hg.held] at hx
      have hold : x ∈ R (.allocated u) → x ∈ R (.allocated u) ∧
          Function.update s.owner c (some t) x = s.owner x := fun hx =>
        ⟨hx, Function.update_of_ne (fun e : x = c => hheld u (e ▸ hx)) _ _⟩
      split_ifs at hx with hu
      · rcases List.mem_cons.1 hx with rfl | hx
        · exact .inr ⟨by rw [Function.update_self, hu], hnot, hu ▸ hact⟩
        · exact .inl (hold hx)
      · exact .inl (hold hx)
    · rw [hg.held, if_neg hu]
    · rw [hg.held, if_pos rfl] at hx
      exact (List.mem_cons.1 hx).symm.imp_right fun (e : x = c) v => e ▸ hnot v

/-- A free of a chunk that is on the list of no other unfinished transaction. -/
theorem free (h : Inv s cs w R) {offset : ℕ}
    (hown : ∀ c ∈ (s.ainfo.pg offset).startsChunk, (s.ainfo.chunk c).start = offset →
      ∀ u, (s.thread u).phase.Private → c ∈ R (.allocated u) → u = t)
    (hstep : step s (.free t offset) = some s') : Inv s' cs w R := by
  rw [step] at hstep
  split_ifs at hstep with hact
  obtain ⟨⟨a, r⟩, hfree, hs⟩ := Option.map_eq_some_iff.1 hstep
  obtain ⟨hrep, ⟨rfl, hchunk⟩ | ⟨c, hc, rfl, hstart, halloc, -, hchunk⟩⟩ := h.rep.freeBlock hfree
  · dsimp only at hs
    subst hs
    have ha : Inv { s with ainfo := a } cs w R := h.setAinfo hrep
      (fun u c hc => ⟨(h.toFree u c hc).1, by rw [hchunk]⟩) fun u c hc => .inl ⟨hc, rfl⟩
    refine ha.setThread (.refl _) (fun u hp => .inr ⟨?_, fun _ => id⟩) ?_ ?_
    · by_cases hu : u = t
      · subst hu
        simpa using hp
      · simpa [hu] using hp
    · intro ts hp
      simp [hact] at hp
    · intro hp
      simp [hact] at hp
  · dsimp only at hs
    subst hs
    have hbusy : (s.ainfo.chunk c).busy = true := by simp [Chunk.busy, halloc]
    have hnot : ∀ u, c ∉ (s.thread u).allocChunksToFree := by
      intro u hc
      simp [(h.toFree u c hc).2.1] at halloc
    have hown := hown c (by
      obtain ⟨l₁, l₂, hl⟩ := List.append_of_mem (show c ∈ cs ++ [w] by simp [hc])
      rw [← hstart, Rep.pg_eq h.rep.tiled hl]
      rfl) hstart
    have hphase : ∀ u, (Function.update s.thread t { s.thread t with
        allocChunksToFree := c :: (s.thread t).allocChunksToFree } u).phase =
          (s.thread u).phase := by
      intro u
      by_cases hu : u = t
      · simp [hu]
      · simp [hu]
    have hlist : ∀ u x, x ∈ (Function.update s.thread t { s.thread t with
        allocChunksToFree := c :: (s.thread t).allocChunksToFree } u).allocChunksToFree ↔
        u = t ∧ x = c ∨ x ∈ (s.thread u).allocChunksToFree := by
      intro u x
      by_cases hu : u = t
      · simp [hu]
      · simp [hu]
    refine ⟨hrep, fun u x hx => ?_, fun u => ?_, fun u v x hu hv => ?_, fun u hp x hx => ?_,
      fun u hp x hx v hv => ?_, fun u ts hp => ?_, fun u hp => ?_⟩
    · simp only [hchunk]
      rcases (hlist u x).1 hx with ⟨-, rfl⟩ | hx
      · rw [Function.update_self]
        exact ⟨hc, rfl, rfl⟩
      · rw [Function.update_of_ne fun e : x = c => hnot u (e ▸ hx)]
        exact h.toFree u x hx
    · by_cases hu : u = t
      · simpa [State.setThread, hu] using ⟨hnot t, h.nodup t⟩
      · simpa [State.setThread, hu] using h.nodup u
    · rcases (hlist u x).1 hu with ⟨rfl, rfl⟩ | hu'
      · rcases (hlist v x).1 hv with ⟨rfl, -⟩ | hv'
        · rfl
        · exact absurd hv' (hnot v)
      · rcases (hlist v x).1 hv with ⟨rfl, rfl⟩ | hv'
        · exact absurd hu' (hnot u)
        · exact h.disjoint u v x hu' hv'
    · exact h.owned u (hphase u ▸ hp) x hx
    · have hp' := hphase u ▸ hp
      rcases (hlist v x).1 hv with ⟨rfl, rfl⟩ | hv
      · exact hown u hp' hx
      · exact h.cross u hp' x hx v hv
    · exact h.releasing u ts ((hphase u).symm.trans hp)
    · have := (hphase u).symm.trans hp
      by_cases hu : u = t
      · subst hu
        simp [hact] at this
      · simpa [State.setThread, hu] using h.unrolling u this

/-- A free that is lawful only marks the chunk. -/
theorem free_lawful (h : Inv s cs w R) {offset : ℕ} (hlaw : Lawful s (.free t offset))
    (hstep : step s (.free t offset) = some s') : Inv s' cs w R := by
  refine h.free (fun c hc hstart u hp hu => ?_) hstep
  have ho := h.owned u hp c hu
  rcases hlaw c hc hstart with hown | hown
  · simp [hown] at ho
  · simpa [hown, eq_comm] using ho

/-- A commit begins the hook of its thread. -/
theorem commit (h : Inv s cs w R) {writes : Bool} (hstep : step s (.commit t writes) = some s') :
    Inv s' cs w R := by
  by_cases hact : (s.thread t).phase = .active ∧ (s.thread t).shouldAbort = false
  case neg => simp [step, hact] at hstep
  rw [step, if_pos hact] at hstep
  obtain rfl := Option.some.inj hstep
  refine h.setThread (.refl _) (fun u hp => ?_) (by simp) (by simp)
  by_cases hu : u = t
  · subst hu
    simp [Phase.Private] at hp
  · rw [Function.update_of_ne hu] at hp
    refine .inr ⟨hp, fun c hc => ?_⟩
    rw [hc, if_neg (by simpa using hu)]

/-- So does an abort. -/
theorem abort (h : Inv s cs w R) (hstep : step s (.abort t) = some s') : Inv s' cs w R := by
  rw [step] at hstep
  split_ifs at hstep with hact
  obtain rfl := Option.some.inj hstep
  refine h.setThread (.refl _) (fun u hp => .inr ⟨?_, fun _ => id⟩) (by simp) (by simp)
  by_cases hu : u = t
  · simp [hu, hact, Phase.Private]
  · simpa [hu] using hp

/-- A new snapshot touches no chunk. -/
theorem update (h : Inv s cs w R) {ts : Ts} (hstep : step s (.update t ts) = some s') :
    Inv s' cs w R := by
  rw [step] at hstep
  split_ifs at hstep with hact
  obtain rfl := Option.some.inj hstep
  refine h.setThread (.refl _) (fun u hp => .inr ⟨?_, fun _ => id⟩) (by simp [hact])
    (by simp [hact])
  by_cases hu : u = t
  · simp [hu, hact, Phase.Private]
  · simpa [hu] using hp

/-! ### Steps of a hook -/

/-- The first chunk of a list of a thread is taken off it. -/
theorem dropHeld (h : Inv s cs w R) (hnext : s.ainfo.links.next (.head (.allocated t)) =
    some (.item c)) :
    ∃ L l, R (.allocated t) = c :: l ∧ s.ainfo.links.del (.item c) = some L ∧
      Inv { s with ainfo := { s.ainfo with links := L } } cs w
        (Function.update R (.allocated t) l) ∧ ∀ g, c ∉ Function.update R (.allocated t) l g := by
  have hlists := h.rep.lists
  obtain ⟨l, hl⟩ : ∃ l, R (.allocated t) = c :: l := by
    cases hR : R (.allocated t) with
    | nil => simp [hlists.first_nil hR] at hnext
    | cons x l =>
      rw [hlists.first_cons hR] at hnext
      exact ⟨l, by simpa using hnext⟩
  have hmem : c ∈ R (.allocated t) := by simp [hl]
  obtain ⟨L, hdel, hL, -⟩ := hlists.del hmem
  rw [hl, List.erase_cons_head] at hL
  have hcl : c ∉ l := by
    have := hlists.nodup (.allocated t)
    rw [hl] at this
    exact (List.nodup_cons.1 this).1
  have hsub : ∀ u, Function.update R (.allocated t) l (.allocated u) ⊆ R (.allocated u) := by
    intro u
    by_cases hu : u = t
    · simp [hu, hl]
    · simp [hu]
  refine ⟨L, l, hl, hdel, h.setAinfo ⟨h.rep.tiled.congr (fun _ => rfl) (fun _ => rfl) rfl rfl rfl,
    h.rep.wildFree, hL, fun x => ?_, fun u x hx => h.rep.held u x (hsub u hx)⟩
    (fun u x hx => ⟨(h.toFree u x hx).1, rfl⟩) fun u x hx => .inl ⟨hsub u hx, rfl⟩, fun g hg => ?_⟩
  · rw [Function.update_of_ne (by simp)]
    exact h.rep.bestfit x
  · by_cases hgt : g = .allocated t
    · subst hgt
      rw [Function.update_self] at hg
      exact hcl hg
    · rw [Function.update_of_ne hgt] at hg
      exact hgt (hlists.disjoint hg hmem)

/-- **A round of clearing**: a chunk is no longer the transaction's. -/
theorem clear (h : Inv s cs w R) {ts : Ts} (hp : (s.thread t).phase = .clearing ts)
    (hstep : clearStep s t ts = some s') : ∃ R', Inv s' cs w R' ∧ Moves s t R R' := by
  rw [clearStep] at hstep
  split at hstep
  case h_1 c hnext =>
    obtain ⟨L, l, hl, hdel, hinv, -⟩ := h.dropHeld hnext
    rw [hdel, Option.map_some] at hstep
    obtain rfl := Option.some.inj hstep
    exact ⟨_, hinv, .drop hl⟩
  case h_2 u hnext =>
    split_ifs at hstep with hu
    obtain rfl := Option.some.inj hstep
    subst hu
    have hnil : R (.allocated u) = [] := by
      cases hR : R (.allocated u) with
      | nil => rfl
      | cons x l => simp [h.rep.lists.first_cons hR] at hnext
    refine ⟨R, h.setThread (.refl _) (fun v hpv => ?_) (fun _ _ => hnil) (by simp), .refl _ _ _⟩
    by_cases hv : v = u
    · exact .inl (hv ▸ hnil)
    · exact .inr ⟨by simpa [hv] using hpv, fun _ => id⟩
  case h_3 => simp at hstep

/-- A chunk that is on no list of the allocator or of a thread is released. -/
theorem put (h : Inv s cs w R) (hc : c ∈ cs) (hR : ∀ g, c ∉ R g)
    (hfree : ∀ u, c ∉ (s.thread u).allocChunksToFree) {ts : Ts} {a : Ainfo ι}
    (hrel : releaseBlock c ts s.ainfo = some a) (owner : ℕ → Option ι) (freedAt : ℕ → ℕ)
    (howner : ∀ x, x ≠ c → owner x = s.owner x) :
    ∃ cs' R', Inv { s with ainfo := a, owner := owner, freedAt := freedAt } cs' w R' ∧
      Merged (Function.update s.ainfo.chunk c ((s.ainfo.chunk c).release ts)) cs
        (s.ainfo.mergePlan c) a.chunk cs' ∧ ∀ u, R' (.allocated u) = R (.allocated u) := by
  obtain ⟨a', cs', R', hrel', hrep, hmerged, hheld⟩ := h.rep.releaseBlock hc hR ts
  obtain rfl := Option.some.inj (hrel'.symm.trans hrel)
  refine ⟨cs', R', h.setAinfo hrep (fun u x hx => ?_) fun u x hx => .inl ?_, hmerged,
    hheld⟩
  · have hxc : x ≠ c := fun e => hfree u (e ▸ hx)
    have hkeep := (hmerged.keep x).1
    refine ⟨hmerged.mem_of_busy (h.toFree u x hx).1 ?_, ?_⟩
    · rw [Function.update_of_ne hxc]
      exact h.toFree_busy hx
    · rwa [Function.update_of_ne hxc] at hkeep
  · rw [hheld] at hx
    exact ⟨hx, howner x fun e => hR _ (e ▸ hx)⟩

/-- A thread takes the first chunk off its list of chunks to free. -/
theorem dropToFree (h : Inv s cs w R) {rest : List ℕ}
    (hlist : (s.thread t).allocChunksToFree = c :: rest) :
    Inv (s.setThread t { s.thread t with allocChunksToFree := rest }) cs w R ∧
      ∀ u, c ∉ ((s.setThread t { s.thread t with allocChunksToFree := rest }).thread
        u).allocChunksToFree := by
  have hnd := h.nodup t
  rw [hlist] at hnd
  refine ⟨h.setThread (by simp [hlist]) (fun u hp => .inr ⟨?_, fun _ => id⟩)
    (fun ts hp => h.releasing t ts hp) (fun hp => ?_), fun u hu => ?_⟩
  · by_cases hu : u = t
    · subst hu
      simpa using hp
    · simpa [hu] using hp
  · have := h.unrolling t hp
    rw [hlist] at this
    simp at this
  · by_cases hut : u = t
    · subst hut
      simp only [State.setThread, Function.update_self] at hu
      exact (List.nodup_cons.1 hnd).1 hu
    · simp only [State.setThread, Function.update_of_ne hut] at hu
      exact hut (h.disjoint u t c hu (by simp [hlist]))

/-- **A round of releasing**: a chunk goes to a free list, with the neighbours it is merged with.
-/
theorem release (h : Inv s cs w R) {ts : Ts} (hp : (s.thread t).phase = .releasing ts)
    (hoff : ∀ c ∈ s.toRelease t, ∀ g, c ∉ R g) (hstep : releaseStep s t ts = some s') :
    ∃ cs' R', Inv s' cs' w R' ∧ Moves s t R R' := by
  rw [releaseStep] at hstep
  split at hstep
  case h_1 =>
    obtain rfl := Option.some.inj hstep
    refine ⟨cs, R, h.setThread (.refl _) (fun u hpu => ?_) (by simp) (by simp), .refl _ _ _⟩
    by_cases hu : u = t
    · exact .inl (hu ▸ h.releasing t ts hp)
    · exact .inr ⟨by simpa [hu] using hpu, fun _ => id⟩
  case h_2 c rest hlist =>
    obtain ⟨a, hrel, rfl⟩ := Option.map_eq_some_iff.1 hstep
    have hc := (h.toFree t c (by simp [hlist])).1
    have hcR := hoff c (by simp [State.toRelease, hp, hlist])
    obtain ⟨hdrop, hfree⟩ := h.dropToFree hlist
    obtain ⟨cs', R', hinv, -, hheld⟩ := hdrop.put hc hcR hfree hrel
      s.owner (s.markFreed c ts) fun _ _ => rfl
    exact ⟨cs', R', hinv, .of_eq t hheld⟩

/-- **A round of resetting**: a chunk that was to be freed is not. -/
theorem reset (h : Inv s cs w R) (hp : (s.thread t).phase = .resetting)
    (hstep : resetStep s t = some s') : Inv s' cs w R := by
  rw [resetStep] at hstep
  split at hstep
  case h_1 hlist =>
    obtain rfl := Option.some.inj hstep
    refine h.setThread (.refl _) (fun u hpu => .inr ⟨?_, fun _ => id⟩) (by simp) fun _ => hlist
    by_cases hu : u = t
    · simp [hu, hp, Phase.Private]
    · simpa [hu] using hpu
  case h_2 c rest hlist =>
    obtain rfl := Option.some.inj hstep
    have hbusy := h.toFree_busy (t := t) (c := c) (by simp [hlist])
    obtain ⟨hdrop, hfree⟩ := h.dropToFree hlist
    refine hdrop.setAinfo (h.rep.congr (fun x => ?_) (fun x => ?_) (fun x => ?_) rfl rfl rfl rfl)
      (fun u x hx => ⟨(hdrop.toFree u x hx).1, ?_⟩) fun u x hx => .inl ⟨hx, rfl⟩
    · by_cases hx : x = c
      · simp [Ainfo.setChunk, hx]
      · simp [Ainfo.setChunk, hx]
    · by_cases hx : x = c
      · simp [Ainfo.setChunk, hx]
      · simp [Ainfo.setChunk, hx]
    · by_cases hx : x = c
      · simp [Ainfo.setChunk, hx, hbusy]
      · simp [Ainfo.setChunk, hx]
    · have hxc : x ≠ c := fun e => hfree u (e ▸ hx)
      simp [Ainfo.setChunk, State.setThread, hxc]

/-- **A round of unrolling**: a chunk that was allocated is free again. -/
theorem unroll (h : Inv s cs w R) (hp : (s.thread t).phase = .unrolling)
    (hstep : unrollStep s t = some s') : ∃ cs' R', Inv s' cs' w R' ∧ Moves s t R R' := by
  have hpriv : (s.thread t).phase.Private := by simp [hp, Phase.Private]
  rw [unrollStep] at hstep
  split at hstep
  case h_1 c hnext =>
    obtain ⟨L, l, hl, hdel, hinv, hR⟩ := h.dropHeld hnext
    rw [hdel, Option.bind_some] at hstep
    obtain ⟨a, hrel, rfl⟩ := Option.map_eq_some_iff.1 hstep
    have hmem : c ∈ R (.allocated t) := by simp [hl]
    have hfree : ∀ u, c ∉ (s.thread u).allocChunksToFree := by
      intro u hu
      obtain rfl := h.cross t hpriv c hmem u hu
      simp [h.unrolling t hp] at hu
    obtain ⟨cs', R', hinv', -, hheld⟩ := hinv.put (h.rep.held t c hmem).1 hR hfree hrel
      (Function.update s.owner c none) s.freedAt fun x hx => Function.update_of_ne hx _ _
    exact ⟨cs', R', hinv', (Moves.drop hl).trans (.of_eq t hheld)⟩
  case h_2 =>
    split_ifs at hstep
    obtain rfl := Option.some.inj hstep
    refine ⟨cs, R, h.setThread (.refl _) (fun u hpu => .inr ⟨?_, fun _ => id⟩) (by simp) (by simp),
      .refl _ _ _⟩
    by_cases hu : u = t
    · exact hu ▸ hpriv
    · simpa [hu] using hpu
  case h_3 => simp at hstep

/-- One round of a hook. -/
theorem hook (h : Inv s cs w R) (hoff : ∀ c ∈ s.toRelease t, ∀ g, c ∉ R g)
    (hstep : Alloc.step s (.hook t) = some s') :
    ∃ cs' w' R', Inv s' cs' w' R' ∧ Moves s t R R' := by
  cases hp : (s.thread t).phase with
  | active => simp [Alloc.step, hp] at hstep
  | clearing ts =>
    simp only [Alloc.step, hp] at hstep
    obtain ⟨R', h', hmoves⟩ := h.clear hp hstep
    exact ⟨cs, w, R', h', hmoves⟩
  | releasing ts =>
    simp only [Alloc.step, hp] at hstep
    obtain ⟨cs', R', h', hmoves⟩ := h.release hp hoff hstep
    exact ⟨cs', w, R', h', hmoves⟩
  | resetting =>
    simp only [Alloc.step, hp] at hstep
    exact ⟨cs, w, R, h.reset hp hstep, .refl _ _ _⟩
  | unrolling =>
    simp only [Alloc.step, hp] at hstep
    obtain ⟨cs', R', h', hmoves⟩ := h.unroll hp hstep
    exact ⟨cs', w, R', h', hmoves⟩

/-- **Every step keeps the invariant.** -/
theorem step (h : Inv s cs w R) {act : Act ι} (hlaw : Lawful s act) (hsound : Sound s act)
    (hstep : Alloc.step s act = some s') :
    ∃ cs' w' R', Inv s' cs' w' R' ∧ Moves s act.thread R R' := by
  cases act with
  | alloc t size mem => exact h.alloc hlaw hsound hstep
  | free t offset => exact ⟨cs, w, R, h.free_lawful hlaw hstep, .refl _ _ _⟩
  | commit t writes => exact ⟨cs, w, R, h.commit hstep, .refl _ _ _⟩
  | abort t => exact ⟨cs, w, R, h.abort hstep, .refl _ _ _⟩
  | update t ts => exact ⟨cs, w, R, h.update hstep, .refl _ _ _⟩
  | hook t => exact h.hook (fun c hc => h.rep.lists.not_mem_of_next (hsound c hc)) hstep

/-- A fresh file and threads without a transaction. -/
theorem of_init (h : Init s) : Inv s [] 0 (fun | .bestfit => [0] | .allocated _ => []) where
  rep := h.ainfo ▸ Rep.recover
  toFree := fun t c hc => by simp [(h.threads t).toFree] at hc
  nodup := fun t => by simp [(h.threads t).toFree]
  disjoint := fun t u c hc => by simp [(h.threads t).toFree] at hc
  owned := by simp
  cross := by simp
  releasing := by simp
  unrolling := fun t hp => by simp [(h.threads t).phase] at hp

end Inv

/-! ### The views agree -/

/-- The chunks tile the file and the boundary table knows them, `bestfit_list` holds the
free ones, and allocated blocks do not overlap. -/
structure WellFormed (a : Ainfo ι) : Prop where
  tiled : ∃ cs w, Tiled a cs w
  bestfit : ∃ l, a.bestfitList = some l ∧ l.Nodup ∧
    ∀ c, c ∈ l ↔ a.live c = true ∧ (a.chunk c).busy = false
  disjoint : ∀ c d, a.live c = true → a.live d = true → c ≠ d →
    (a.chunk c).lastFreed.allocated = true → (a.chunk d).lastFreed.allocated = true →
    (a.chunk c).start + (a.chunk c).size ≤ (a.chunk d).start ∨
      (a.chunk d).start + (a.chunk d).size ≤ (a.chunk c).start

/-- What the invariant says of the chunks. -/
theorem Rep.wellFormed {a : Ainfo ι} {cs : List ℕ} {w : ℕ} {R : Head ι → List ℕ}
    (h : Rep a cs w R) : WellFormed a where
  tiled := ⟨cs, w, h.tiled⟩
  bestfit := ⟨R .bestfit, h.bestfitList, h.lists.nodup _, fun c => by
    rw [h.bestfit, h.tiled.live]⟩
  disjoint := fun c d hc hd hne _ _ =>
    h.tiled.apart ((h.tiled.live c).1 hc) ((h.tiled.live d).1 hd) hne

/-- The chunks of every state that is reached are tiled and listed. -/
theorem Inv.of_reachable {s : State ι}
    (h : (machine ι).ReachableWith (fun s act => Lawful s act ∧ Sound s act) s) :
    ∃ cs w R, Inv s cs w R :=
  h.invariant (I := fun s => ∃ cs w R, Inv s cs w R) (fun _ hs => ⟨_, _, _, Inv.of_init hs⟩)
    fun _ _ _ _ ⟨_, _, _, hi⟩ hc hstep => by
      obtain ⟨cs', w', R', hi', -⟩ := hi.step hc.1 hc.2 hstep
      exact ⟨cs', w', R', hi'⟩

/-- **The three views of the allocator agree.**  In every run of allocations of at least a
page, of frees of blocks that are committed or the caller's own, and of hooks, in any
order, whose offsets stay below `2^64` and in which a chunk that is released after a commit
is on no list, the chunks tile the file, the boundary table names them, and
`bestfit_list` holds the free ones. -/
theorem blocks_wellFormed {s : State ι}
    (h : (machine ι).ReachableWith (fun s act => Lawful s act ∧ Sound s act) s) :
    WellFormed s.ainfo := by
  obtain ⟨cs, w, R, hi⟩ := Inv.of_reachable h
  exact hi.rep.wellFormed

/-- Two threads on a fresh file. -/
def fresh : State Bool where
  ainfo := Ainfo.recover
  thread := fun _ => ⟨0, false, [], .active⟩
  masterTs := 0
  owner := fun _ => none
  freedAt := fun _ => 0

theorem init_fresh : (machine Bool).init fresh :=
  ⟨rfl, fun _ => ⟨rfl, rfl, rfl⟩, fun _ => rfl, fun _ => rfl⟩

/-- No allocation of metadata fails. -/
def plenty : Memory := ⟨true, true, true⟩

/-- A thread allocates a block and commits, the other one sees the commit, frees the block
and commits; `between` happens before that. -/
def handOver (between : List (Act Bool)) : List (Act Bool) :=
  [.alloc false 4096 plenty, .commit false true] ++ between ++
  [.update true 1, .free true 0, .commit true true, .hook true, .hook true]

/-- What a state shows of chunk `0` and of `bestfit_list`. -/
def State.look (s : State Bool) : Bool × Bool × Option (List ℕ) :=
  (s.ainfo.live 0, (s.ainfo.chunk 0).busy, s.ainfo.bestfitList)

theorem blocks_wellFormed_handOver : ∃ s,
    (machine Bool).ReachableWith (fun s act => Lawful s act ∧ Sound s act) s ∧
    s.look = (true, false, some [0, 1]) ∧ WellFormed s.ainfo := by
  have h : ((machine Bool).run (fun s act => decide (Lawful s act ∧ Sound s act)) fresh
      (handOver [.hook false, .hook false, .hook false])).map State.look =
      some (true, false, some [0, 1]) := by decide +kernel
  obtain ⟨s, hs, hlook⟩ := Option.map_eq_some_iff.1 h
  have hreach : (machine Bool).ReachableWith (fun s act => Lawful s act ∧ Sound s act) s :=
    Machine.ReachableWith.run (fun s act => of_decide_eq_true) (.init init_fresh) hs
  exact ⟨s, hreach, hlook, blocks_wellFormed hreach⟩

/-- The second thread is faster than the hook of the first one: the chunk is put on
`bestfit_list` while it is on `allocated_chunks`, and the hook takes it off
`bestfit_list`. -/
theorem not_blocks_wellFormed_handOver : ∃ s, (machine Bool).ReachableWith Lawful s ∧
    ¬WellFormed s.ainfo := by
  have h : ((machine Bool).run (fun s act => decide (Lawful s act)) fresh
      (handOver [] ++ [.hook false])).map State.look = some (true, false, some [1]) := by
    decide +kernel
  obtain ⟨s, hs, hlook⟩ := Option.map_eq_some_iff.1 h
  simp only [State.look, Prod.mk.injEq] at hlook
  obtain ⟨hlive, hbusy, hlist⟩ := hlook
  refine ⟨s, Machine.ReachableWith.run (fun s act => of_decide_eq_true) (.init init_fresh) hs,
    fun hw => ?_⟩
  obtain ⟨l, hl, -, hmem⟩ := hw.bestfit
  obtain rfl := Option.some.inj (hlist.symm.trans hl)
  simpa using (hmem 0).2 ⟨hlive, hbusy⟩

end Alloc
end Sivfs
