/-
# Aborts

`_sivfs_allocation_on_abort` first undoes the frees of a transaction and then releases what
it allocated, so that a chunk that was allocated and freed again is undone in the opposite
order.

The status flags and the timestamp of a chunk share a word.  To undo a free, the function
masks the word with the flags where it should mask them away, so that `SIVFS_CHUNK_FREEING`
stays and the timestamp goes.

A transaction is followed with a log of what it freed and was granted and of the merges that
its hook is about to do (`Txn`); `Undo` says which words the chunks of the log have.
-/

import Sivfs.Alloc.Coalesce
import Sivfs.Alloc.Locked

namespace Sivfs
namespace Alloc

variable {ι : Type*} [DecidableEq ι]

/-! ### Transactions -/

/-- What a transaction did so far. -/
structure Log where
  freed : List ℕ
  granted : List ℕ
  /-- A chunk as it was when the transaction first touched it; one that was split for the
  transaction has its new size. -/
  before : ℕ → Chunk
  /-- The merges that were ahead in the rounds of its hook that released a chunk, as the chunks
  stood before each round. -/
  merges : List (ℕ × ℕ)

namespace Log

variable (g : Log)

/-- Nothing. -/
def empty : Log := ⟨[], [], fun _ => ⟨⟨0, false, false⟩, 0, 0⟩, []⟩

/-- The transaction freed the chunk or was granted it. -/
def Touched (c : ℕ) : Prop := c ∈ g.freed ∨ c ∈ g.granted

/-- No merge takes the chunk or adds to it. -/
def Unmerged (c : ℕ) : Prop := ∀ m ∈ g.merges, m.1 ≠ c ∧ m.2 ≠ c

/-- Chunk `c` is granted between two states of the allocator. -/
def grant (a a' : Ainfo ι) (c : ℕ) : Log where
  freed := g.freed
  granted := c :: g.granted
  before := Function.update g.before c { a'.chunk c with lastFreed := (a.chunk c).lastFreed }
  merges := g.merges

/-- Chunk `c` is freed. -/
def free (a : Ainfo ι) (c : ℕ) : Log where
  freed := c :: g.freed
  granted := g.granted
  before := if c ∈ g.granted then g.before else Function.update g.before c (a.chunk c)
  merges := g.merges

/-- The hook releases chunk `c`. -/
def release (a : Ainfo ι) (c : ℕ) : Log := { g with merges := g.merges ++ a.mergePlan c }

/-- A step of the thread. -/
def record (s : State ι) : Act ι → Log
  | .alloc t size mem =>
    match allocBlock mem t (s.thread t).ts size s.ainfo with
    | some (a, .ok c) => g.grant s.ainfo a c
    | _ => g
  | .free t offset =>
    match freeBlock (s.thread t).ts offset s.ainfo with
    | some (_, some c) => g.free s.ainfo c
    | _ => g
  | .hook t =>
    match s.released t with
    | some c => g.release s.ainfo c
    | none => g
  | _ => g

omit [DecidableEq ι] in
/-- A free notes the word of no other chunk. -/
theorem free_before_of_ne (a : Ainfo ι) {c x : ℕ} (hx : x ≠ c) :
    (g.free a c).before x = g.before x := by
  rw [free]
  dsimp only
  split_ifs
  · rfl
  · exact Function.update_of_ne hx _ _

omit [DecidableEq ι] in
/-- Nor that of a chunk that the transaction was granted: it has one from before. -/
theorem free_before_of_granted (a : Ainfo ι) {c x : ℕ} (hx : x ∈ g.granted) :
    (g.free a c).before x = g.before x := by
  by_cases hxc : x = c
  · subst hxc
    rw [free]
    exact congrFun (if_pos hx) x
  · exact g.free_before_of_ne a hxc

end Log

/-- A commit of writes or of none. -/
def Act.isCommit : Act ι → Bool
  | .commit _ _ => true
  | _ => false

/-- The chunks that the transaction touched are what they are. -/
def Log.Leaves (g : Log) (s s' : State ι) : Prop := ∀ c, g.Touched c →
  s'.ainfo.chunk c = s.ainfo.chunk c ∧ s'.ainfo.live c = s.ainfo.live c

/-- The states within a transaction of thread `t` that does not commit, up to the last round
of its hook, while the other threads leave the chunks it touched alone. -/
inductive Txn (t : ι) : Log → State ι → Prop
  | start {s : State ι} : (machine ι).ReachableWith (fun s act => Lawful s act ∧ Sound s act) s →
    (s.thread t).Fresh → s.ainfo.list (.allocated t) = some [] → Txn t .empty s
  | own {g : Log} {s s' : State ι} (act : Act ι) : Txn t g s → act.thread = t →
    act.isCommit = false → Lawful s act → Sound s act → step s act = some s' →
    ((s.thread t).phase ≠ .active → (s'.thread t).phase ≠ .active) → Txn t (g.record s act) s'
  | other {g : Log} {s s' : State ι} (act : Act ι) : Txn t g s → act.thread ≠ t →
    Lawful s act → Sound s act → step s act = some s' → g.Leaves s s' → Txn t g s'

/-! ### What is to be undone -/

/-- The words of the chunks that a transaction touched, `l` being its allocated chunks. -/
structure Undo (g : Log) (s : State ι) (t : ι) (l : List ℕ) : Prop where
  phase : (s.thread t).phase.Private
  toFree : ∀ c ∈ (s.thread t).allocChunksToFree, c ∈ g.freed ∧
    (s.ainfo.chunk c).lastFreed = ⟨(g.before c).lastFreed.ts, false, true⟩
  reset : ∀ c, c ∈ g.freed → c ∉ (s.thread t).allocChunksToFree →
    (s.thread t).phase ≠ .active ∧ (c ∈ l ∨ c ∉ g.granted →
      (s.ainfo.chunk c).lastFreed = ⟨0, true, true⟩)
  held : ∀ c ∈ l, c ∈ g.granted ∧ (c ∉ g.freed →
    (s.ainfo.chunk c).lastFreed = ⟨(g.before c).lastFreed.ts, true, false⟩)
  released : ∀ c, c ∈ g.granted → c ∉ l → (s.thread t).phase = .unrolling ∧
    (s.ainfo.chunk c).lastFreed = ⟨if c ∈ g.freed then 0 else (g.before c).lastFreed.ts,
      false, false⟩
  before : ∀ c, c ∈ g.granted → (s.ainfo.chunk c).start = (g.before c).start ∧
    (g.before c).lastFreed = ⟨(g.before c).lastFreed.ts, false, false⟩

/-- A step of a thread leaves the others alone. -/
theorem thread_of_ne {s s' : State ι} {act : Act ι} {t : ι} (hstep : step s act = some s')
    (ht : act.thread ≠ t) : s'.thread t = s.thread t := by
  have hset : ∀ u (th : Thread), u ≠ t → (s.setThread u th).thread t = s.thread t :=
    fun u th hu => Function.update_of_ne (Ne.symm hu) _ _
  cases act with
  | alloc u size mem =>
    rw [step] at hstep
    split_ifs at hstep
    obtain ⟨⟨a, r⟩, -, hs⟩ := Option.map_eq_some_iff.1 hstep
    cases r with
    | error e => rw [← hs]
    | ok d => rw [← hs]
  | free u offset =>
    rw [step] at hstep
    split_ifs at hstep
    obtain ⟨⟨a, r⟩, -, hs⟩ := Option.map_eq_some_iff.1 hstep
    cases r with
    | none =>
      rw [← hs]
      exact hset u _ ht
    | some d =>
      rw [← hs]
      exact hset u _ ht
  | commit u writes =>
    by_cases hact : (s.thread u).phase = .active ∧ (s.thread u).shouldAbort = false
    case neg => simp [step, hact] at hstep
    rw [step, if_pos hact] at hstep
    obtain rfl := Option.some.inj hstep
    exact hset u _ ht
  | abort u =>
    rw [step] at hstep
    split_ifs at hstep
    obtain rfl := Option.some.inj hstep
    exact hset u _ ht
  | update u ts =>
    rw [step] at hstep
    split_ifs at hstep
    obtain rfl := Option.some.inj hstep
    exact hset u _ ht
  | hook u =>
    cases hp : (s.thread u).phase with
    | active => simp [step, hp] at hstep
    | clearing ts =>
      simp only [step, hp, clearStep] at hstep
      split at hstep
      · obtain ⟨L, -, rfl⟩ := Option.map_eq_some_iff.1 hstep
        rfl
      · split_ifs at hstep
        obtain rfl := Option.some.inj hstep
        exact hset u _ ht
      · simp at hstep
    | releasing ts =>
      simp only [step, hp, releaseStep] at hstep
      split at hstep
      · obtain rfl := Option.some.inj hstep
        exact hset u _ ht
      · obtain ⟨a, -, rfl⟩ := Option.map_eq_some_iff.1 hstep
        exact hset u _ ht
    | resetting =>
      simp only [step, hp, resetStep] at hstep
      split at hstep
      · obtain rfl := Option.some.inj hstep
        exact hset u _ ht
      · obtain rfl := Option.some.inj hstep
        exact hset u _ ht
    | unrolling =>
      simp only [step, hp, unrollStep] at hstep
      split at hstep
      · obtain ⟨L, -, hmap⟩ := Option.bind_eq_some_iff.1 hstep
        obtain ⟨a, -, rfl⟩ := Option.map_eq_some_iff.1 hmap
        rfl
      · split_ifs at hstep
        obtain rfl := Option.some.inj hstep
        exact hset u _ ht
      · simp at hstep

/-- The lists of an allocator are what they are. -/
theorem Rep.lists_eq {a : Ainfo ι} {cs cs' : List ℕ} {w w' : ℕ} {R R' : Head ι → List ℕ}
    (h : Rep a cs w R) (h' : Rep a cs' w' R') : R = R' := by
  funext g
  exact Option.some.inj ((h.list g).symm.trans (h'.list g))

namespace Undo

variable {g : Log} {s s' : State ι} {t : ι} {l cs : List ℕ} {w : ℕ} {R : Head ι → List ℕ}

omit [DecidableEq ι] in
/-- A step that leaves the thread, its list and the chunks it touched alone. -/
theorem congr (h : Undo g s t l) (hthread : s'.thread t = s.thread t)
    (hchunk : ∀ c, g.Touched c → s'.ainfo.chunk c = s.ainfo.chunk c) : Undo g s' t l where
  phase := hthread ▸ h.phase
  toFree := fun c hc => by
    rw [hthread] at hc
    rw [hchunk c (.inl (h.toFree c hc).1)]
    exact h.toFree c hc
  reset := fun c hf hc => by
    rw [hthread] at hc ⊢
    rw [hchunk c (.inl hf)]
    exact h.reset c hf hc
  held := fun c hc => by
    rw [hchunk c (.inr (h.held c hc).1)]
    exact h.held c hc
  released := fun c hg hc => by
    rw [hthread, hchunk c (.inr hg)]
    exact h.released c hg hc
  before := fun c hg => by
    rw [hchunk c (.inr hg)]
    exact h.before c hg

omit [DecidableEq ι] in
/-- In the transaction a touched chunk is on one of the two lists, so it is busy. -/
theorem mem_of_touched (h : Undo g s t l) (hact : (s.thread t).phase = .active) {c : ℕ}
    (hc : g.Touched c) : c ∈ (s.thread t).allocChunksToFree ∨ c ∈ l := by
  rcases hc with hf | hg
  · by_contra hno
    exact (h.reset c hf fun hm => hno (.inl hm)).1 hact
  · by_contra hno
    have := (h.released c hg fun hm => hno (.inr hm)).1
    simp [hact] at this

omit [DecidableEq ι] in
theorem touched_mem (h : Undo g s t (R (.allocated t))) (hi : Inv s cs w R)
    (hact : (s.thread t).phase = .active) {c : ℕ} (hc : g.Touched c) :
    c ∈ cs ∧ (s.ainfo.chunk c).busy = true := by
  rcases h.mem_of_touched hact hc with hm | hm
  · exact ⟨(hi.toFree t c hm).1, hi.toFree_busy hm⟩
  · exact hi.rep.held t c hm

theorem record_hook (h : Undo g s t l) (s₀ : State ι) (u : ι) :
    Undo (g.record s₀ (.hook u)) s t l := by
  rw [Log.record]
  split
  · exact ⟨h.phase, h.toFree, h.reset, h.held, h.released, h.before⟩
  · exact h

/-! ### Steps of the thread -/

theorem alloc (h : Undo g s t (R (.allocated t))) (hi : Inv s cs w R) {size : ℕ} {mem : Memory}
    (hsize : pageSize ≤ size) (hfits : FitsAlloc s.ainfo (s.thread t).ts size)
    (hstep : step s (.alloc t size mem) = some s') {cs' : List ℕ} {w' : ℕ} {R' : Head ι → List ℕ}
    (hi' : Inv s' cs' w' R') : Undo (g.record s (.alloc t size mem)) s' t (R' (.allocated t)) := by
  rw [step] at hstep
  split_ifs at hstep with hact
  obtain ⟨a, r, halloc, hres⟩ := hi.rep.allocBlock mem t (s.thread t).ts hsize hfits
  rw [halloc, Option.map_some, Option.some.injEq] at hstep
  subst hstep
  rcases hres with ⟨e, rfl, hrep, hchunk⟩ | ⟨c, cs₁, w₁, R₁, rfl, hg, -⟩
  · simp only [Log.record, halloc]
    obtain rfl := hi'.rep.lists_eq hrep
    exact h.congr rfl fun c _ => by rw [hchunk]
  · simp only [Log.record, halloc]
    obtain rfl := hi'.rep.lists_eq hg.rep
    have hnot : ¬g.Touched c := by
      intro hc
      have := (h.touched_mem hi hact hc).2
      simp [hg.free] at this
    have hkeep : ∀ x, g.Touched x → x ≠ c ∧ a.chunk x = s.ainfo.chunk x := by
      intro x hx
      have hxc : x ≠ c := fun e => hnot (e ▸ hx)
      exact ⟨hxc, hg.keep x (by simp [(h.touched_mem hi hact hx).1]) hxc⟩
    obtain ⟨n, -, -, hc⟩ := hg.chunk
    have hfree := hg.free
    rw [Chunk.busy, Bool.or_eq_false_iff] at hfree
    have hmem : ∀ x, x ∈ R' (.allocated t) ↔ x = c ∨ x ∈ R (.allocated t) := by
      intro x
      rw [hg.held, if_pos rfl, List.mem_cons]
    refine ⟨h.phase, fun x hx => ?_, fun x hf hx => ?_, fun x hx => ?_, fun x hgx hx => ?_,
      fun x hgx => ?_⟩
    · obtain ⟨hf, hword⟩ := h.toFree x hx
      obtain ⟨hxc, hsame⟩ := hkeep x (.inl hf)
      refine ⟨hf, ?_⟩
      simp only [Log.grant, Function.update_of_ne hxc, hsame]
      exact hword
    · exact absurd hact (h.reset x hf hx).1
    · rcases (hmem x).1 hx with rfl | hx
      · refine ⟨List.mem_cons_self .., fun _ => ?_⟩
        simp only [Log.grant, Function.update_self, hc, Chunk.allocate, hfree.2]
      · obtain ⟨hgx, hword⟩ := h.held x hx
        obtain ⟨hxc, hsame⟩ := hkeep x (.inr hgx)
        simp only [Log.grant, Function.update_of_ne hxc, hsame]
        exact ⟨List.mem_cons_of_mem _ hgx, hword⟩
    · have hxc : x ≠ c := fun e => hx ((hmem x).2 (.inl e))
      have hgx := (List.mem_cons.1 hgx).resolve_left hxc
      have := (h.released x hgx fun hm => hx ((hmem x).2 (.inr hm))).1
      simp [hact] at this
    · by_cases hxc : x = c
      · subst hxc
        simp only [Log.grant, Function.update_self]
        refine ⟨trivial, ?_⟩
        rw [LastFreed.mk.injEq]
        exact ⟨rfl, hfree.1, hfree.2⟩
      · have hgx := (List.mem_cons.1 hgx).resolve_left hxc
        simp only [Log.grant, Function.update_of_ne hxc]
        rw [(hkeep x (.inr hgx)).2]
        exact h.before x hgx

omit [DecidableEq ι] in
/-- A step of the thread that changes no chunk and no list of it. -/
theorem setPhase (h : Undo g s t l) (hp : (s'.thread t).phase.Private)
    (hlist : (s'.thread t).allocChunksToFree = (s.thread t).allocChunksToFree)
    (hchunk : s'.ainfo.chunk = s.ainfo.chunk)
    (hact : (s'.thread t).phase = .active → (s.thread t).phase = .active)
    (hunr : (s.thread t).phase = .unrolling → (s'.thread t).phase = .unrolling) :
    Undo g s' t l where
  phase := hp
  toFree := fun c hc => by
    rw [hchunk]
    exact h.toFree c (hlist ▸ hc)
  reset := fun c hf hc => by
    rw [hchunk]
    obtain ⟨hne, hword⟩ := h.reset c hf (hlist ▸ hc)
    exact ⟨fun ha => hne (hact ha), hword⟩
  held := fun c hc => by
    rw [hchunk]
    exact h.held c hc
  released := fun c hg hc => by
    rw [hchunk]
    obtain ⟨hu, hword⟩ := h.released c hg hc
    exact ⟨hunr hu, hword⟩
  before := fun c hg => by
    rw [hchunk]
    exact h.before c hg

omit [DecidableEq ι] in
/-- A block is marked as freed. -/
theorem mark (h : Undo g s t (R (.allocated t))) (hi : Inv s cs w R)
    (hact : (s.thread t).phase = .active) {c : ℕ}
    (halloc : (s.ainfo.chunk c).lastFreed.allocated = true)
    (hp : (s'.thread t).phase.Private)
    (hlist : (s'.thread t).allocChunksToFree = c :: (s.thread t).allocChunksToFree)
    (hchunk : s'.ainfo.chunk = Function.update s.ainfo.chunk c (s.ainfo.chunk c).setFreeing) :
    Undo (g.free s.ainfo c) s' t (R (.allocated t)) := by
  have hnot : c ∉ (s.thread t).allocChunksToFree := by
    intro hm
    simp [(hi.toFree t c hm).2.1] at halloc
  have hts : ((g.free s.ainfo c).before c).lastFreed.ts = (s.ainfo.chunk c).lastFreed.ts := by
    by_cases hg : c ∈ g.granted
    · have hmem : c ∈ R (.allocated t) := by
        by_contra hno
        have := (h.released c hg hno).1
        simp [hact] at this
      have hf : c ∉ g.freed := fun hf => (h.reset c hf hnot).1 hact
      rw [g.free_before_of_granted _ hg, (h.held c hmem).2 hf]
    · rw [Log.free]
      simp only [if_neg hg, Function.update_self]
  refine ⟨hp, fun x hx => ?_, fun x hf hx => ?_, fun x hx => ?_, fun x hgx hx => ?_,
    fun x hgx => ?_⟩
  · rw [hlist, List.mem_cons] at hx
    by_cases hxc : x = c
    · subst hxc
      refine ⟨List.mem_cons_self .., ?_⟩
      rw [hts, hchunk, Function.update_self, Chunk.setFreeing]
    · obtain ⟨hf, hword⟩ := h.toFree x (hx.resolve_left hxc)
      rw [g.free_before_of_ne _ hxc, hchunk, Function.update_of_ne hxc]
      exact ⟨List.mem_cons_of_mem _ hf, hword⟩
  · rw [hlist, List.mem_cons, not_or] at hx
    have hf := (List.mem_cons.1 hf).resolve_left hx.1
    exact absurd hact (h.reset x hf hx.2).1
  · obtain ⟨hgx, hword⟩ := h.held x hx
    refine ⟨hgx, fun hf => ?_⟩
    have hxc : x ≠ c := by
      rintro rfl
      simp [Log.free] at hf
    rw [g.free_before_of_ne _ hxc, hchunk, Function.update_of_ne hxc]
    exact hword fun hm => hf (List.mem_cons_of_mem _ hm)
  · have := (h.released x hgx hx).1
    simp [hact] at this
  · rw [g.free_before_of_granted _ hgx, hchunk]
    by_cases hxc : x = c
    · subst hxc
      rw [Function.update_self]
      exact h.before x hgx
    · rw [Function.update_of_ne hxc]
      exact h.before x hgx

theorem free (h : Undo g s t (R (.allocated t))) (hi : Inv s cs w R) {offset : ℕ}
    (hstep : step s (.free t offset) = some s') :
    Undo (g.record s (.free t offset)) s' t (R (.allocated t)) := by
  rw [step] at hstep
  split_ifs at hstep with hact
  obtain ⟨⟨a, r⟩, hfree, hs⟩ := Option.map_eq_some_iff.1 hstep
  obtain ⟨-, ⟨rfl, hchunk⟩ | ⟨c, hc, rfl, -, halloc, -, hchunk⟩⟩ := hi.rep.freeBlock hfree
  · simp only [Log.record, hfree]
    dsimp only at hs
    subst hs
    have hthread : (s.setThread t { s.thread t with shouldAbort := true }).thread t =
        { s.thread t with shouldAbort := true } := Function.update_self ..
    refine h.setPhase ?_ ?_ hchunk (fun _ => hact) ?_ <;> simp only [hthread]
    · exact h.phase
    · exact id
  · simp only [Log.record, hfree]
    dsimp only at hs
    subst hs
    have hthread : (s.setThread t { s.thread t with
        allocChunksToFree := c :: (s.thread t).allocChunksToFree }).thread t = { s.thread t with
        allocChunksToFree := c :: (s.thread t).allocChunksToFree } := Function.update_self ..
    refine h.mark hi hact halloc ?_ ?_ hchunk <;> simp only [hthread]
    exact h.phase

theorem reset_step (h : Undo g s t (R (.allocated t))) (hi : Inv s cs w R)
    (hp : (s.thread t).phase = .resetting) (hstep : resetStep s t = some s') :
    Undo g s' t (R (.allocated t)) := by
  rw [resetStep] at hstep
  split at hstep
  case h_1 hlist =>
    obtain rfl := Option.some.inj hstep
    refine h.setPhase ?_ ?_ rfl ?_ ?_
    · simp [State.setPhase, State.setThread, Phase.Private]
    · simp [State.setPhase, State.setThread]
    · simp [State.setPhase, State.setThread]
    · simp [hp]
  case h_2 c rest hlist =>
    obtain rfl := Option.some.inj hstep
    have hthread : (s.setThread t { s.thread t with allocChunksToFree := rest }).thread t =
        { s.thread t with allocChunksToFree := rest } := Function.update_self ..
    have hnd := hi.nodup t
    rw [hlist, List.nodup_cons] at hnd
    have hother : ∀ x, x ≠ c →
        (s.ainfo.setChunk c (s.ainfo.chunk c).abortFree).chunk x = s.ainfo.chunk x :=
      fun x hx => Function.update_of_ne hx _ _
    have hself : (s.ainfo.setChunk c (s.ainfo.chunk c).abortFree).chunk c =
        (s.ainfo.chunk c).abortFree := Function.update_self ..
    obtain ⟨hfc, hwc⟩ := h.toFree c (by simp [hlist])
    refine ⟨?_, fun x hx => ?_, fun x hf hx => ?_, fun x hx => ?_, fun x hgx hx => ?_,
      fun x hgx => ?_⟩
    · simp only [hthread]
      exact h.phase
    · simp only [hthread] at hx
      have hxc : x ≠ c := fun e => hnd.1 (e ▸ hx)
      simp only [hother x hxc]
      exact h.toFree x (by simp [hlist, hx])
    · simp only [hthread] at hx ⊢
      refine ⟨by simp [hp], fun hon => ?_⟩
      by_cases hxc : x = c
      · subst hxc
        rw [hself, Chunk.abortFree, hwc]
      · rw [hother x hxc]
        exact (h.reset x hf (by simp [hlist, hxc, hx])).2 hon
    · obtain ⟨hgx, hword⟩ := h.held x hx
      refine ⟨hgx, fun hf => ?_⟩
      have hxc : x ≠ c := by
        rintro rfl
        simp [hfc] at hf
      simp only [hother x hxc]
      exact hword hf
    · have := (h.released x hgx hx).1
      simp [hp] at this
    · by_cases hxc : x = c
      · subst hxc
        simp only [hself, Chunk.abortFree_start]
        exact h.before x hgx
      · simp only [hother x hxc]
        exact h.before x hgx

theorem unroll (h : Undo g s t (R (.allocated t))) (hi : Inv s cs w R)
    (hp : (s.thread t).phase = .unrolling) (hstep : unrollStep s t = some s')
    (hgo : (s'.thread t).phase ≠ .active) {cs' : List ℕ} {w' : ℕ} {R' : Head ι → List ℕ}
    (hi' : Inv s' cs' w' R') : Undo g s' t (R' (.allocated t)) := by
  rw [unrollStep] at hstep
  split at hstep
  case h_1 c hnext =>
    obtain ⟨L, l, hl, hdel, hinv, hR⟩ := hi.dropHeld hnext
    rw [hdel, Option.bind_some] at hstep
    obtain ⟨a, hrel, rfl⟩ := Option.map_eq_some_iff.1 hstep
    have hmem : c ∈ R (.allocated t) := by simp [hl]
    obtain ⟨a', cs₁, R₁, hrel', hrep, hmerged, hheld⟩ :=
      hinv.rep.releaseBlock (hi.rep.held t c hmem).1 hR invalidTs
    obtain rfl := Option.some.inj (hrel'.symm.trans hrel)
    obtain rfl := hi'.rep.lists_eq hrep
    rw [hheld, Function.update_self]
    have hnd := hi.rep.lists.nodup (.allocated t)
    rw [hl, List.nodup_cons] at hnd
    have hword : ∀ x, x ≠ c → (a'.chunk x).lastFreed = (s.ainfo.chunk x).lastFreed := by
      intro x hx
      rw [(hmerged.keep x).1, Function.update_of_ne hx]
    have hstart : ∀ x, (a'.chunk x).start = (s.ainfo.chunk x).start := by
      intro x
      rw [(hmerged.keep x).2.1]
      by_cases hx : x = c
      · subst hx
        rw [Function.update_self, Chunk.release_start]
      · rw [Function.update_of_ne hx]
    have hnil := hi.unrolling t hp
    obtain ⟨hgc, hwc⟩ := h.held c hmem
    refine ⟨h.phase, fun x hx => ?_, fun x hf hx => ?_, fun x hx => ?_, fun x hgx hx => ?_,
      fun x hgx => ?_⟩
    · simp [hnil] at hx
    · refine ⟨by simp [hp], fun hon => ?_⟩
      have hxc : x ≠ c := by
        rintro rfl
        rcases hon with hon | hon
        · exact hnd.1 hon
        · simp [hgc] at hon
      simp only [hword x hxc]
      refine (h.reset x hf (by simp [hnil])).2 (hon.imp_left fun hm => ?_)
      simp [hl, hm]
    · have hxc : x ≠ c := fun e => hnd.1 (e ▸ hx)
      simp only [hword x hxc]
      exact h.held x (by simp [hl, hx])
    · refine ⟨hp, ?_⟩
      by_cases hxc : x = c
      · subst hxc
        simp only [(hmerged.keep x).1, Function.update_self]
        by_cases hf : x ∈ g.freed
        · have := (h.reset x hf (by simp [hnil])).2 (.inl hmem)
          simp [hf, Chunk.release, invalidTs, this]
        · simp [hf, Chunk.release, invalidTs, hwc hf]
      · simp only [hword x hxc]
        exact (h.released x hgx (by simp [hl, hxc, hx])).2
    · simp only [hstart]
      exact h.before x hgx
  case h_2 =>
    split_ifs at hstep
    obtain rfl := Option.some.inj hstep
    simp [State.setPhase, State.setThread] at hgo
  case h_3 => simp at hstep

/-- **A step of the thread.** -/
theorem own (h : Undo g s t (R (.allocated t))) (hi : Inv s cs w R) {act : Act ι}
    (ht : act.thread = t) (hno : act.isCommit = false) (hlaw : Lawful s act)
    (hsound : Sound s act) (hstep : step s act = some s')
    (hgo : (s.thread t).phase ≠ .active → (s'.thread t).phase ≠ .active) {cs' : List ℕ} {w' : ℕ}
    {R' : Head ι → List ℕ} (hi' : Inv s' cs' w' R') :
    Undo (g.record s act) s' t (R' (.allocated t)) := by
  cases act with
  | alloc u size mem =>
    obtain rfl : u = t := ht
    exact h.alloc hi hlaw hsound hstep hi'
  | free u offset =>
    obtain rfl : u = t := ht
    rw [hi'.rep.lists_eq (hi.free_lawful hlaw hstep).rep]
    exact h.free hi hstep
  | commit u writes => simp [Act.isCommit] at hno
  | abort u =>
    obtain rfl : u = t := ht
    rw [hi'.rep.lists_eq (hi.abort hstep).rep]
    rw [step] at hstep
    split_ifs at hstep with hact
    obtain rfl := Option.some.inj hstep
    refine h.setPhase ?_ ?_ rfl (fun _ => hact) ?_
    · simp [State.setThread, Phase.Private]
    · simp [State.setThread]
    · simp [hact]
  | update u ts =>
    obtain rfl : u = t := ht
    rw [hi'.rep.lists_eq (hi.update hstep).rep]
    rw [step] at hstep
    split_ifs at hstep with hact
    obtain rfl := Option.some.inj hstep
    refine h.setPhase ?_ ?_ rfl (fun _ => hact) ?_
    · simpa [State.setThread] using h.phase
    · simp [State.setThread]
    · simp [hact]
  | hook u =>
    obtain rfl : u = t := ht
    have hpriv := h.phase
    cases hp : (s.thread u).phase with
    | active => simp [step, hp] at hstep
    | clearing ts => simp [hp, Phase.Private] at hpriv
    | releasing ts => simp [hp, Phase.Private] at hpriv
    | resetting =>
      simp only [step, hp] at hstep
      rw [hi'.rep.lists_eq (hi.reset hp hstep).rep]
      exact (h.reset_step hi hp hstep).record_hook s u
    | unrolling =>
      simp only [step, hp] at hstep
      exact (h.unroll hi hp hstep (hgo (by simp [hp])) hi').record_hook s u

end Undo

/-- The words in a transaction are those that its log says. -/
theorem Txn.undo {t : ι} {g : Log} {s : State ι} (h : Txn t g s) :
    ∃ cs w R, Inv s cs w R ∧ Undo g s t (R (.allocated t)) := by
  induction h with
  | @start s hs hfresh hlist =>
    obtain ⟨cs, w, R, hi⟩ := Inv.of_reachable hs
    obtain hnil : R (.allocated t) = [] := Option.some.inj ((hi.rep.list _).symm.trans hlist)
    refine ⟨cs, w, R, hi, ?_⟩
    rw [hnil]
    refine ⟨?_, ?_, ?_, ?_, ?_, ?_⟩
    · simp [hfresh.phase, Phase.Private]
    · simp [hfresh.toFree]
    · simp [Log.empty]
    · simp
    · simp [Log.empty]
    · simp [Log.empty]
  | @own g s s' act _ ht hno hlaw hsound hstep hgo ih =>
    obtain ⟨cs, w, R, hi, hu⟩ := ih
    obtain ⟨cs', w', R', hi', -⟩ := hi.step hlaw hsound hstep
    exact ⟨cs', w', R', hi', hu.own hi ht hno hlaw hsound hstep hgo hi'⟩
  | @other g s s' act _ ht hlaw hsound hstep hkeep ih =>
    obtain ⟨cs, w, R, hi, hu⟩ := ih
    obtain ⟨cs', w', R', hi', hmoves⟩ := hi.step hlaw hsound hstep
    refine ⟨cs', w', R', hi', ?_⟩
    rw [hmoves.others t (Ne.symm ht)]
    exact hu.congr (thread_of_ne hstep ht) fun c hc => (hkeep c hc).1

end Alloc
end Sivfs
