/-
# Loads see stores

Runs of the machine of `Sivfs.Update.Paging`.  Every page of every thread is `PageOk` in every
state (`reachable_inv`): a turn of the thread keeps it by the lemmas about one fault, and a turn
of another thread by `Inv.keeps_commit` and `Inv.keeps_makeCheckpoint`.

Outside of the mode for direct access a thread thus sees, at every address at which something
is mapped, its snapshot with its own stores on top (`load_sees_stores`), and a store that is
tried again goes through after the second fault, whatever other threads, commits and checkpoints
do in between (`store_progresses`).
-/

import Sivfs.Update.StoreProgress

open PathCopy

namespace Sivfs
namespace Paging

open Checkpoint (Ref Shared Thread CpOk InRange pathOf)

/-! ### Whole runs -/

section Runs

variable {ι V : Type*} [DecidableEq ι] [DecidableEq V] {s s' : State ι V} {i : ι} {p : ℕ × ℕ}
  {v : V}

/-- **What holds in every state.** -/
structure Inv (s : State ι V) : Prop where
  shared : Checkpoint.Inv s.shared
  snap : ∀ i (n : ℕ), (s.shared.threads i).ts = (n : Ts) → n ≤ s.shared.masterTs
  pages : ∀ i p, PageOk s.shared.toShared (s.shared.threads i) p ((s.tasks i).page p)

omit [DecidableEq ι] [DecidableEq V] in
theorem Inv.readOk (h : Inv s) (i : ι) : ReadOk s.shared.toShared (s.shared.threads i) where
  log := h.shared.shared.log
  cp := h.shared.threads i
  snap n hn := (h.snap i n hn).trans_eq h.shared.shared.masterTs

omit [DecidableEq ι] [DecidableEq V] in
theorem Init.inv (h : Init s) : Inv s := by
  obtain ⟨hs, htasks⟩ := h
  refine ⟨Checkpoint.Init.inv hs, fun i n hn => ?_, fun i p => ?_⟩
  · rw [hs.2 i] at hn
    exact absurd hn.symm WithTop.coe_ne_top
  · rw [htasks i]
    exact .empty ..

omit [DecidableEq V] in
/-- A page of a thread is changed. -/
theorem Inv.setPage (h : Inv s) (i : ι) (p : ℕ × ℕ) {res : PageState V × Option Ref}
    (hpage : PageOk s.shared.toShared (s.shared.threads i) p res.1) :
    Inv (s.setTask i ((s.tasks i).setPage p res)) := by
  refine ⟨h.shared, h.snap, fun j q => ?_⟩
  rcases eq_or_ne j i with rfl | hji
  · simp only [State.setTask, Function.update_self, Task.setPage]
    rcases eq_or_ne q p with rfl | hqp
    · rw [Function.update_self]
      exact hpage
    · rw [Function.update_of_ne hqp]
      exact h.pages j q
  · simp only [State.setTask, Function.update_of_ne hji]
    exact h.pages j q

omit [DecidableEq ι] [DecidableEq V] in
/-- A commit is later than every snapshot. -/
theorem Inv.keeps_commit (h : Inv s) (i : ι) (aborted : Bool) (ws : List WsEntry) :
    Keeps (s.shared.threads i) s.shared.toShared { s.shared.toShared with
      log := s.shared.log ++ [⟨s.shared.masterTs + 1, aborted, ws⟩]
      masterTs := s.shared.masterTs + 1 } where
  log n hn := abs_append (Nat.lt_succ_of_le (h.snap i n hn))
  heap _ _ _ _ hr := ⟨hr, rfl⟩

omit [DecidableEq ι] [DecidableEq V] in
/-- A checkpoint is made of new pages. -/
theorem Inv.keeps_makeCheckpoint (h : Inv s) (i : ι) (faults : Checkpoint.MakeFaults) :
    Keeps (s.shared.threads i) s.shared.toShared
      (Checkpoint.makeCheckpoint faults s.shared.toShared).1 := by
  have hs := h.shared.shared
  obtain ⟨hlog, -⟩ := Checkpoint.makeCheckpoint_stores faults hs.latest.le
  obtain ⟨hmade, -⟩ := Checkpoint.makeCheckpoint_made hs.log hs.masterTs hs.heap hs.latest.root
    hs.latest.le faults
  refine ⟨fun n _ => by rw [hlog], fun c r ρ hc hr => ?_⟩
  have hroot : ∀ r, c.root = some r → Checkpoint.Valid s.shared.heap.next r :=
    fun r hr => ((h.shared.threads i c hc).root r hr).1
  rw [hmade.frozen.follow hs.heap.closed hroot]
  refine ⟨hr, ?_⟩
  rw [Checkpoint.Heap.words, Checkpoint.Heap.words,
    hmade.frozen.mem_valid (follow_mem hs.heap.closed hroot ρ r hr)]

omit [DecidableEq V] in
/-- A thread without a snapshot takes something. -/
theorem Inv.take (h : Inv s) (i : ι) (hts : (s.shared.threads i).ts = invalidTs) {th : Thread}
    (hinv : Checkpoint.Inv (s.shared.setThread i th))
    (hsnap : ∀ n : ℕ, th.ts = (n : Ts) → n ≤ s.shared.masterTs) :
    Inv ⟨s.shared.setThread i th, s.tasks⟩ := by
  refine ⟨hinv, fun j n hn => ?_, fun j q => ?_⟩
  · rcases eq_or_ne j i with rfl | hji
    · simp only [Checkpoint.State.setThread, Function.update_self] at hn
      exact hsnap n hn
    · simp only [Checkpoint.State.setThread, Function.update_of_ne hji] at hn
      exact h.snap j n hn
  · rcases eq_or_ne j i with rfl | hji
    · exact (h.pages j q).take hts _
    · simp only [Checkpoint.State.setThread, Function.update_of_ne hji]
      exact h.pages j q

omit [DecidableEq V] in
/-- **What the threads share moves on.** -/
theorem Inv.sharedStep (h : Inv s) {a : Checkpoint.Act ι} (hmay : mayTake s a = true)
    (hstep : sharedStep s a = some s') : Inv s' := by
  obtain ⟨sh, hsh, rfl⟩ := Option.map_eq_some_iff.1 hstep
  have hinv := h.shared.step hsh
  cases a with
  | commit aborted ws =>
    simp only [Checkpoint.step] at hsh
    split_ifs at hsh
    obtain rfl := Option.some.inj hsh
    exact ⟨hinv, fun i n hn => (h.snap i n hn).trans (Nat.le_succ _),
      fun i q => (h.pages i q).keeps (h.keeps_commit i aborted ws)⟩
  | makeCheckpoint faults =>
    obtain rfl := Option.some.inj hsh
    obtain ⟨-, hmaster, -⟩ := Checkpoint.makeCheckpoint_stores faults h.shared.shared.latest.le
    exact ⟨hinv, fun i n hn => (h.snap i n hn).trans_eq hmaster.symm,
      fun i q => (h.pages i q).keeps (h.keeps_makeCheckpoint i faults)⟩
  | checkout i =>
    obtain rfl := Option.some.inj hsh
    exact h.take i (of_decide_eq_true hmay) hinv fun n hn => h.snap i n hn
  | update i =>
    obtain rfl := Option.some.inj hsh
    refine h.take i (of_decide_eq_true hmay) hinv fun n hn => ?_
    exact (WithTop.coe_injective hn).ge
  | pause i =>
    obtain rfl := Option.some.inj hsh
    refine ⟨hinv, fun j n hn => ?_, fun j q => ?_⟩
    · rcases eq_or_ne j i with rfl | hji
      · simp only [State.setTask, Checkpoint.State.setThread, Function.update_self] at hn
        exact absurd hn.symm WithTop.coe_ne_top
      · simp only [State.setTask, Checkpoint.State.setThread, Function.update_of_ne hji] at hn
        exact h.snap j n hn
    · rcases eq_or_ne j i with rfl | hji
      · simp only [State.setTask, Function.update_self]
        exact (h.pages j q).invalidate _
      · simp only [State.setTask, Checkpoint.State.setThread, Function.update_of_ne hji]
        exact h.pages j q

/-- **Every step keeps the invariant.** -/
theorem Inv.step (h : Inv s) {a : Act ι V} (hstep : step s a = some s') : Inv s' := by
  cases a with
  | shared a =>
    simp only [Paging.step] at hstep
    split_ifs at hstep with hmay
    exact h.sharedStep hmay hstep
  | touch i p v write env =>
    obtain rfl := Option.some.inj hstep
    exact h.setPage i p ((h.pages i p).handle (h.readOk i) env v write _)
  | store i p v j x =>
    obtain ⟨pg, hstore, rfl⟩ := Option.map_eq_some_iff.1 hstep
    exact h.setPage i p ((h.pages i p).store hstore)
  | zap i p v =>
    obtain rfl := Option.some.inj hstep
    exact h.setPage i p ((h.pages i p).zap v)
  | reclaim i p =>
    obtain rfl := Option.some.inj hstep
    exact h.setPage i p (h.pages i p).reclaim

theorem reachable_inv (h : (machine ι V).Reachable s) : Inv s :=
  h.invariant (I := fun s => Inv s) (fun _ hs => Init.inv hs) fun _ _ _ _ hi hstep => hi.step hstep

/-- **A load sees the snapshot with the thread's own stores on top**, at every address at which
something is mapped. -/
theorem load_sees_stores (h : (machine ι V).Reachable s) {j x : ℕ} (hj : j < 512)
    (hload : load s.shared.toShared ((s.tasks i).page p) v j = some x) :
    ∃ n : ℕ, (s.shared.threads i).ts = (n : Ts) ∧
      x = expected s.shared.log n p ((s.tasks i).page p).stores j := by
  have hpage := (reachable_inv h).pages i p
  rcases hv : ((s.tasks i).page p).pte v with _ | (r | w)
  · simp [load, hv] at hload
  · obtain ⟨hrec, n, c, hts, -, -, hwords⟩ := hpage.cp v r hv
    simp only [load, hv, Option.some.injEq] at hload
    refine ⟨n, hts, ?_⟩
    rw [expected, hpage.stores_eq_none (hpage.recorded hrec) j, ← hload]
    exact hwords j hj
  · obtain ⟨page, hown, hup⟩ := hpage.own v w hv
    obtain ⟨n, hts, hwords⟩ := hpage.filled page hown hup
    simp only [load, hv, hown, Option.map_some, Option.some.injEq] at hload
    exact ⟨n, hts, hload ▸ hwords j hj⟩

/-- A step of another thread, or of the commits and checkpoints. -/
def Spares (i : ι) : Act ι V → Prop
  | .shared (.commit ..) | .shared (.makeCheckpoint _) => True
  | .shared (.checkout j) | .shared (.update j) | .shared (.pause j) => j ≠ i
  | .touch j .. | .store j .. | .zap j .. | .reclaim j _ => j ≠ i

omit [DecidableEq V] in
/-- What a thread has, another does not change. -/
theorem setTask_tasks_of_ne {j : ι} (hji : j ≠ i) (t : Task V) :
    (s.setTask j t).tasks i = s.tasks i := Function.update_of_ne hji.symm ..

/-- **The others leave a thread alone**: its snapshot, its pages, and what they are based on. -/
theorem Inv.spares (h : Inv s) {a : Act ι V} (ha : Spares i a) (hstep : Paging.step s a = some s') :
    s'.tasks i = s.tasks i ∧ s'.shared.threads i = s.shared.threads i ∧
      Keeps (s.shared.threads i) s.shared.toShared s'.shared.toShared := by
  have hrefl : Keeps (s.shared.threads i) s.shared.toShared s.shared.toShared :=
    ⟨fun _ _ => rfl, fun _ _ _ _ hr => ⟨hr, rfl⟩⟩
  cases a with
  | shared a =>
    simp only [Paging.step] at hstep
    split_ifs at hstep
    obtain ⟨sh, hsh, rfl⟩ := Option.map_eq_some_iff.1 hstep
    cases a with
    | commit aborted ws =>
      simp only [Checkpoint.step] at hsh
      split_ifs at hsh
      obtain rfl := Option.some.inj hsh
      exact ⟨rfl, rfl, h.keeps_commit i aborted ws⟩
    | makeCheckpoint faults =>
      obtain rfl := Option.some.inj hsh
      exact ⟨rfl, rfl, h.keeps_makeCheckpoint i faults⟩
    | checkout j =>
      obtain rfl := Option.some.inj hsh
      exact ⟨rfl, Function.update_of_ne (Ne.symm ha) .., hrefl⟩
    | update j =>
      obtain rfl := Option.some.inj hsh
      exact ⟨rfl, Function.update_of_ne (Ne.symm ha) .., hrefl⟩
    | pause j =>
      obtain rfl := Option.some.inj hsh
      exact ⟨setTask_tasks_of_ne ha _, Function.update_of_ne (Ne.symm ha) .., hrefl⟩
  | touch j p v write env =>
    obtain rfl := Option.some.inj hstep
    exact ⟨setTask_tasks_of_ne ha _, rfl, hrefl⟩
  | store j p v k x =>
    obtain ⟨pg, -, rfl⟩ := Option.map_eq_some_iff.1 hstep
    exact ⟨setTask_tasks_of_ne ha _, rfl, hrefl⟩
  | zap j p v =>
    obtain rfl := Option.some.inj hstep
    exact ⟨setTask_tasks_of_ne ha _, rfl, hrefl⟩
  | reclaim j p =>
    obtain rfl := Option.some.inj hstep
    exact ⟨setTask_tasks_of_ne ha _, rfl, hrefl⟩

/-- Page `p` of thread `i`, with `cp_page_to_cow`. -/
def State.at (s : State ι V) (i : ι) (p : ℕ × ℕ) : PageState V × Option Ref :=
  ((s.tasks i).page p, (s.tasks i).cpPageToCow)

/-- A store has been tried once. -/
def Tried (s : State ι V) (i : ι) (p : ℕ × ℕ) (v : V) : Prop :=
  Writable v (s.at i p) ∨ ToCow s.shared.toShared (s.shared.threads i) p v (s.at i p)

omit [DecidableEq V] in
/-- What page `p` of thread `i` has become. -/
theorem setPage_at (res : PageState V × Option Ref) :
    (s.setTask i ((s.tasks i).setPage p res)).at i p = res := by
  simp only [State.at, State.setTask, Task.setPage, Function.update_self]

/-- The others leave a store that has been tried alone. -/
theorem Tried.runs {s₀ : State ι V} (hs : Inv s₀) (ht : Tried s₀ i p v)
    (hrun : (machine ι V).RunsWith (fun _ a => Spares i a) s₀ s) :
    Inv s ∧ Tried s i p v ∧ s.shared.threads i = s₀.shared.threads i := by
  induction hrun with
  | refl => exact ⟨hs, ht, rfl⟩
  | @step s₁ s₂ a _ ha hstep ih =>
    obtain ⟨hi, ht, hth⟩ := ih
    obtain ⟨htasks, hth', hkeeps⟩ := hi.spares ha hstep
    refine ⟨hi.step hstep, ?_, hth'.trans hth⟩
    have hat : s₂.at i p = s₁.at i p := by rw [State.at, State.at, htasks]
    rw [Tried, hat, hth']
    refine ht.imp_right ?_
    rintro ⟨hv, hown, r, hr, hmap⟩
    exact ⟨hv, hown, r, hr, hmap.keeps hkeeps⟩

/-- **A store goes through** when it has been tried twice, whatever the other threads, commits
and checkpoints do in between. -/
theorem store_progresses (h : (machine ι V).Reachable s) {n : ℕ} {c : Checkpoint.Cp}
    (hread : CanRead (s.shared.threads i) n c p)
    (hup : ∀ page, ((s.tasks i).page p).own = some page → page.uptodate = true)
    (hcow : (s.tasks i).cpPageToCow = none) {env env' : Env} (hq : env.Quiet) (hq' : env'.Quiet)
    {s₁ s₂ s₃ : State ι V} (h₁ : step s (.touch i p v true env) = some s₁)
    (h₂ : (machine ι V).RunsWith (fun _ a => Spares i a) s₁ s₂)
    (h₃ : step s₂ (.touch i p v true env') = some s₃) (j x : ℕ) :
    (s₃.tasks i).cpPageToCow = none ∧ ∃ s₄, step s₃ (.store i p v j x) = some s₄ ∧
      load s₄.shared.toShared ((s₄.tasks i).page p) v j = some x := by
  have hi := reachable_inv h
  have htried : Tried s₁ i p v := by
    obtain rfl := Option.some.inj h₁
    rw [Tried, setPage_at, hcow]
    exact hread.handle_write (hi.readOk i) hq (hi.pages i p) hup
  obtain ⟨hi₂, htried₂, hth⟩ := htried.runs (hi.step h₁) h₂
  have hth : s₂.shared.threads i = s.shared.threads i := by
    obtain rfl := Option.some.inj h₁
    exact hth
  have hwritable : Writable v (s₃.at i p) := by
    obtain rfl := Option.some.inj h₃
    rw [setPage_at]
    obtain ⟨hv, hcow₂⟩ | hcow₂ := htried₂
    · dsimp only [State.at] at hv hcow₂
      simp only [handle, hv, hcow₂]
      exact ⟨hv, rfl⟩
    · rw [← hth] at hread
      exact hread.handle_toCow (hi₂.readOk i) hq' hcow₂
  have hi₃ := hi₂.step h₃
  obtain ⟨hv, hcow₃⟩ := hwritable
  dsimp only [State.at] at hv hcow₃
  obtain ⟨page, hown, -⟩ := (hi₃.pages i p).own v true hv
  refine ⟨hcow₃, _, by rw [step, PageState.store, hv, hown]; rfl, ?_⟩
  simp only [State.setTask, Task.setPage, Function.update_self, load, hv, Option.map_some]

end Runs

/-- Nothing goes wrong. -/
def quiet : Env := ⟨false, false, false, false⟩

theorem quiet_quiet : quiet.Quiet := ⟨rfl, rfl, rfl⟩

/-- One thread, after mounting, and two addresses of each page. -/
def mounted : State Unit Bool where
  shared := Checkpoint.mounted
  tasks := fun _ => ⟨fun _ => .empty, none⟩

theorem mounted_reachable : (machine Unit Bool).Reachable mounted :=
  .init ⟨⟨rfl, fun _ => rfl⟩, fun _ => rfl⟩

/-- A word is committed, a checkpoint is made and taken, and the page is loaded from. -/
def loaded : List (Act Unit Bool) :=
  [.shared (.commit false [⟨1, 8, 0, 0, 7⟩]),
    .shared (.makeCheckpoint ⟨none, Checkpoint.noFaults, none, none⟩), .shared (.checkout ()),
    .shared (.update ()), .touch () (1, 0) true false quiet]

/-- Then the word is stored at one address and loaded at the other. -/
theorem load_sees_stores_alias : ∃ s, (machine Unit Bool).Reachable s ∧
    load s.shared.toShared ((s.tasks ()).page (1, 0)) false 1 = some 9 ∧ ∃ n : ℕ,
      (s.shared.threads ()).ts = (n : Ts) ∧
        9 = expected s.shared.log n (1, 0) ((s.tasks ()).page (1, 0)).stores 1 := by
  have h : ((machine Unit Bool).run (fun _ _ => true) mounted (loaded ++
      [.touch () (1, 0) true true quiet, .touch () (1, 0) true true quiet,
        .store () (1, 0) true 1 9, .touch () (1, 0) false false quiet])).map (fun s =>
        load s.shared.toShared ((s.tasks ()).page (1, 0)) false 1) = some (some 9) := by
    decide +kernel
  obtain ⟨s, hs, h⟩ := Option.map_eq_some_iff.1 h
  have hreach : (machine Unit Bool).Reachable s :=
    Machine.ReachableWith.run (fun _ _ _ => trivial) mounted_reachable hs
  exact ⟨s, hreach, h, load_sees_stores hreach (by decide) h⟩

/-- The page of the checkpoint is mapped; while it is copied there is another commit. -/
theorem store_progresses_mapped : ∃ s₁ s₂ s₃ : State Unit Bool, ∃ s c,
    (machine Unit Bool).Reachable s ∧ CanRead (s.shared.threads ()) 1 c (1, 0) ∧
    (s.tasks ()).cpPageToCow = none ∧ step s (.touch () (1, 0) true true quiet) = some s₁ ∧
    (machine Unit Bool).RunsWith (fun _ a => Spares () a) s₁ s₂ ∧
    step s₂ (.touch () (1, 0) true true quiet) = some s₃ ∧ (s₃.tasks ()).cpPageToCow = none ∧
    ∃ s₄, step s₃ (.store () (1, 0) true 1 9) = some s₄ ∧
      load s₄.shared.toShared ((s₄.tasks ()).page (1, 0)) true 1 = some 9 := by
  have h : ((machine Unit Bool).run (fun _ _ => true) mounted loaded).map (fun s =>
      ((s.shared.threads ()).ts, (s.shared.threads ()).checkpoint.map Checkpoint.Cp.cpTs,
        (s.tasks ()).cpPageToCow, ((s.tasks ()).page (1, 0)).own.isNone)) =
      some (((1 : ℕ) : Ts), some 1, none, true) := by decide +kernel
  obtain ⟨s, hs, h⟩ := Option.map_eq_some_iff.1 h
  simp only [Prod.mk.injEq] at h
  obtain ⟨hts, hcp, hcow, hown⟩ := h
  obtain ⟨c, hcp, hcpTs⟩ := Option.map_eq_some_iff.1 hcp
  have hreach : (machine Unit Bool).Reachable s :=
    Machine.ReachableWith.run (fun _ _ _ => trivial) mounted_reachable hs
  have hread : CanRead (s.shared.threads ()) 1 c (1, 0) := by
    refine ⟨?_, hcpTs.le, by decide⟩
    rw [← hts, ← hcp]
  have hup : ∀ page, ((s.tasks ()).page (1, 0)).own = some page → page.uptodate = true :=
    fun page hpage => absurd (hpage ▸ hown) (by simp)
  refine ⟨_, _, _, s, c, hreach, hread, hcow, rfl,
    .step (.shared (.commit false [])) .refl trivial rfl, rfl, ?_⟩
  exact store_progresses hreach hread hup hcow quiet_quiet quiet_quiet rfl
    (.step (.shared (.commit false [])) .refl trivial rfl) rfl 1 9

end Paging
end Sivfs
